import Mathlib.Data.Nat.Notation
import Mathlib.Data.UInt

/-!
# Varnish.Lib.Ctype — bytes and characters in the C locale

* `char`, `chars`: the characters that bytes stand for.
* `isspace`, `bspace`: white space, of a character and of a byte.
* `lower`, `toLower_char`: small letters.
-/

namespace Varnish.Lib

def char (b : UInt8) : Char := Char.ofNat b.toNat

def chars (bs : List UInt8) : List Char := bs.map char

/-- `isspace` -/
def isspace (c : Char) : Bool := c = ' ' || (9 ≤ c.toNat && c.toNat ≤ 13)

/-- `isspace` of a byte -/
def bspace (b : UInt8) : Bool := b = 32 || (9 ≤ b.toNat && b.toNat ≤ 13)

/-- Small letters. -/
def lower (c : UInt8) : UInt8 := if 65 ≤ c.toNat ∧ c.toNat ≤ 90 then c + 32 else c

theorem toNat_char (b : UInt8) : (char b).toNat = b.toNat := by
  have hlt := b.toNat_lt
  have hv : b.toNat.isValidChar := .inl (by omega)
  rw [char, Char.ofNat, dif_pos hv]
  rfl

theorem char_inj {a b : UInt8} (h : char a = char b) : a = b := by
  have hn := congrArg Char.toNat h
  rw [toNat_char, toNat_char] at hn
  exact UInt8.toNat_inj.mp hn

theorem toLower_char (b : UInt8) : (char b).toLower = char (lower b) := by
  have hall : ∀ k : Fin 256, (char (UInt8.ofNat k)).toLower = char (lower (UInt8.ofNat k)) := by decide +kernel
  have hb := hall ⟨b.toNat, b.toNat_lt⟩
  rwa [UInt8.ofNat_toNat] at hb

end Varnish.Lib
