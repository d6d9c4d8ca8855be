import Mathlib.Data.List.Sort
import Mathlib.Data.List.TakeWhile
import Mathlib.Logic.Function.Basic
import Varnish.Lib.Run
import Varnish.Lib.Strtoul
import Varnish.Ban.Argv

/-!
# Varnish.Mgt.Param — the run-time parameters (mgt_param.c, mgt_pool.c)

* `parspec`: the table, sorted.  `tweakSet`, `tweakShow`: the functions of the parameters.
* `mcfParamInit`, `mcfParamSet`: the defaults, and a command.
* `Good`: what the function of a parameter has checked.
* `tweakSet_show`: a number that is set as it is shown stays.  `tweakShow_leaves`: the others stay.
* `reach_params`: over any commands every parameter is what its function lets through, also where two of them bound one another.
  `reach_shown`: and a number can be set as it is shown.
-/

namespace Varnish.Mgt.Param

open Varnish.Ban Varnish.Lib Varnish.Lib.Strtoul

/-! ## Data -/

section Data

/-- The `unsigned` members of `struct params`. -/
inductive Member
  | defaultTtl | sessWorkspace | httpHeaders | shmWorkspace | shmReclen | defaultGrace | sessTimeout | pipeTimeout
  | sendTimeout | autoRestart | fetchChunksize | sendfileThreshold | vclTrace | listenDepth | cliTimeout | pingInterval
  | lruTimeout | maxRestarts | esiSyntax | maxEsiIncludes | cacheVbeConns | clockSkew | preferIpv6 | maxSess | sessionLinger
  | cliBuffer | logHash | logLocalAddr | errTtl | purgeDups | syslogCliTraffic | saintmodeThreshold | wthreadPools
  | wthreadTimeout | wthreadPurgeDelay | wthreadAddThreshold | wthreadAddDelay | wthreadFailDelay | wthreadStatsRate
  | overflowMax | rushExponent | wthreadMin | wthreadMax | wthreadStacksize | diagBitmap
deriving DecidableEq

/-- The `double` members. -/
inductive DMember
  | connectTimeout | firstByteTimeout | betweenBytesTimeout | acceptorSleepMax | acceptorSleepIncr | acceptorSleepDecay
  | banLurkerSleep
deriving DecidableEq

/-- The function of a parameter, and the member it sets. -/
inductive Tweak
  | user | group | listenAddress | ccCommand | waiter | diagBitmap | threadPoolMin | threadPoolMax | stackSize
  | uint (m : Member)
  | timeout (m : Member)
  | bool (m : Member)
  | timeoutDouble (m : DMember)
  | genericDouble (m : DMember)
deriving DecidableEq

structure Passwd where
  name : Str
  uid : ℕ
  gid : ℕ

structure Group where
  name : Str
  gid : ℕ

/-- The C library, and what the program was built with: `strtod` and the comparison of `double`s, the users and groups, the
addresses of a name (`VSS_parse`, `VSS_resolve`), `vca_waiters`, `sysconf(_SC_THREAD_STACK_MIN)` and `VCC_CC`. -/
structure Env (D A : Type) where
  strtod : Str → D
  lt : D → D → Bool
  ofNat : ℕ → D
  printf : D → Str
  printg : D → Str
  getpwnam : Str → Option Passwd
  getgrgid : ℕ → Option Group
  getgrnam : Str → Option Group
  getuid : ℕ
  getgid : ℕ
  resolve : Str → List A
  waiters : List Str
  stackMin : ℕ
  vccCc : Str

/-- `struct parspec`; a default of `none` is `VCC_CC`. -/
structure Parspec where
  name : String
  func : Tweak
  min : ℕ
  max : ℕ
  flags : ℕ
  dflt : Option Str
deriving DecidableEq

/-- `struct params` -/
structure Params (D : Type) where
  user : Option Str
  uid : ℕ
  group : Option Str
  gid : ℕ
  listenAddress : Str
  uint : Member → ℕ
  double : DMember → D

/-- `master`, the copy in the shared memory once there is one, `mgt_cc_cmd`, `vca_act` and `heritage.socks`. -/
structure St (D A : Type) where
  master : Params D
  shared : Option (Params D)
  ccCmd : Str
  waiter : Option Str
  socks : List (Str × A)

end Data

/-! ## The table -/

section Table

def uintMax : ℕ := 2 ^ 32 - 1

def magicInitString : Str := ['\x01']

/-- The flags are 1 `DELAYED_EFFECT`, 2 `EXPERIMENTAL`, 4 `MUST_RESTART` and 8 `MUST_RELOAD`.  The row of `sendfile_threshold` is
there where `SENDFILE_WORKS` is defined. -/
def inputParspec : List Parspec :=
  [⟨"user", .user, 0, 0, 4, some magicInitString⟩,
   ⟨"group", .group, 0, 0, 4, some magicInitString⟩,
   ⟨"default_ttl", .uint .defaultTtl, 0, uintMax, 0, some "120".toList⟩,
   ⟨"sess_workspace", .uint .sessWorkspace, 1024, uintMax, 1, some "65536".toList⟩,
   ⟨"http_headers", .uint .httpHeaders, 32, uintMax, 0, some "64".toList⟩,
   ⟨"shm_workspace", .uint .shmWorkspace, 4096, uintMax, 1, some "8192".toList⟩,
   ⟨"shm_reclen", .uint .shmReclen, 16, 65535, 0, some "255".toList⟩,
   ⟨"default_grace", .uint .defaultGrace, 0, uintMax, 1, some "10".toList⟩,
   ⟨"sess_timeout", .timeout .sessTimeout, 0, 0, 0, some "5".toList⟩,
   ⟨"pipe_timeout", .timeout .pipeTimeout, 0, 0, 0, some "60".toList⟩,
   ⟨"send_timeout", .timeout .sendTimeout, 0, 0, 1, some "600".toList⟩,
   ⟨"auto_restart", .bool .autoRestart, 0, 0, 0, some "on".toList⟩,
   ⟨"fetch_chunksize", .uint .fetchChunksize, 4, uintMax / 1024, 2, some "128".toList⟩,
   ⟨"sendfile_threshold", .uint .sendfileThreshold, 0, uintMax, 2, some "-1".toList⟩,
   ⟨"vcl_trace", .bool .vclTrace, 0, 0, 0, some "off".toList⟩,
   ⟨"listen_address", .listenAddress, 0, 0, 4, some ":80".toList⟩,
   ⟨"listen_depth", .uint .listenDepth, 0, uintMax, 4, some "1024".toList⟩,
   ⟨"cli_timeout", .timeout .cliTimeout, 0, 0, 0, some "10".toList⟩,
   ⟨"ping_interval", .uint .pingInterval, 0, uintMax, 4, some "3".toList⟩,
   ⟨"lru_interval", .timeout .lruTimeout, 0, 0, 2, some "2".toList⟩,
   ⟨"cc_command", .ccCommand, 0, 0, 8, none⟩,
   ⟨"max_restarts", .uint .maxRestarts, 0, uintMax, 0, some "4".toList⟩,
   ⟨"esi_syntax", .uint .esiSyntax, 0, uintMax, 0, some "0".toList⟩,
   ⟨"max_esi_includes", .uint .maxEsiIncludes, 0, uintMax, 0, some "5".toList⟩,
   ⟨"cache_vbe_conns", .bool .cacheVbeConns, 0, 0, 2, some "off".toList⟩,
   ⟨"connect_timeout", .timeoutDouble .connectTimeout, 0, uintMax, 0, some "0.4".toList⟩,
   ⟨"first_byte_timeout", .timeoutDouble .firstByteTimeout, 0, uintMax, 0, some "60".toList⟩,
   ⟨"between_bytes_timeout", .timeoutDouble .betweenBytesTimeout, 0, uintMax, 0, some "60".toList⟩,
   ⟨"acceptor_sleep_max", .timeoutDouble .acceptorSleepMax, 0, 10, 2, some "0.050".toList⟩,
   ⟨"acceptor_sleep_incr", .timeoutDouble .acceptorSleepIncr, 0, 1, 2, some "0.001".toList⟩,
   ⟨"acceptor_sleep_decay", .genericDouble .acceptorSleepDecay, 0, 1, 2, some "0.900".toList⟩,
   ⟨"clock_skew", .uint .clockSkew, 0, uintMax, 0, some "10".toList⟩,
   ⟨"prefer_ipv6", .bool .preferIpv6, 0, 0, 0, some "off".toList⟩,
   ⟨"session_max", .uint .maxSess, 1000, uintMax, 0, some "100000".toList⟩,
   ⟨"session_linger", .uint .sessionLinger, 0, uintMax, 2, some "50".toList⟩,
   ⟨"cli_buffer", .uint .cliBuffer, 4096, uintMax, 0, some "8192".toList⟩,
   ⟨"log_hashstring", .bool .logHash, 0, 0, 0, some "off".toList⟩,
   ⟨"log_local_address", .bool .logLocalAddr, 0, 0, 0, some "off".toList⟩,
   ⟨"waiter", .waiter, 0, 0, 6, some "default".toList⟩,
   ⟨"diag_bitmap", .diagBitmap, 0, 0, 0, some "0".toList⟩,
   ⟨"err_ttl", .uint .errTtl, 0, uintMax, 0, some "0".toList⟩,
   ⟨"purge_dups", .bool .purgeDups, 0, 0, 0, some "on".toList⟩,
   ⟨"syslog_cli_traffic", .bool .syslogCliTraffic, 0, 0, 0, some "on".toList⟩,
   ⟨"ban_lurker_sleep", .timeoutDouble .banLurkerSleep, 0, uintMax, 0, some "0.0".toList⟩,
   ⟨"saintmode_threshold", .uint .saintmodeThreshold, 0, uintMax, 2, some "10".toList⟩]

def wrkParspec : List Parspec :=
  [⟨"thread_pools", .uint .wthreadPools, 1, uintMax, 3, some "2".toList⟩,
   ⟨"thread_pool_max", .threadPoolMax, 1, 0, 3, some "500".toList⟩,
   ⟨"thread_pool_min", .threadPoolMin, 2, 0, 3, some "5".toList⟩,
   ⟨"thread_pool_timeout", .timeout .wthreadTimeout, 1, 0, 3, some "300".toList⟩,
   ⟨"thread_pool_purge_delay", .timeout .wthreadPurgeDelay, 100, 0, 3, some "1000".toList⟩,
   ⟨"thread_pool_add_threshold", .uint .wthreadAddThreshold, 0, uintMax, 2, some "2".toList⟩,
   ⟨"thread_pool_add_delay", .timeout .wthreadAddDelay, 0, uintMax, 2, some "20".toList⟩,
   ⟨"thread_pool_fail_delay", .timeout .wthreadFailDelay, 100, uintMax, 2, some "200".toList⟩,
   ⟨"thread_stats_rate", .uint .wthreadStatsRate, 0, uintMax, 2, some "10".toList⟩,
   ⟨"overflow_max", .uint .overflowMax, 0, uintMax, 2, some "100".toList⟩,
   ⟨"rush_exponent", .uint .rushExponent, 2, uintMax, 2, some "3".toList⟩,
   ⟨"thread_pool_stack", .stackSize, 0, uintMax, 2, some "-1".toList⟩]

/-- `strcmp` finds that the first is not the greater one. -/
def strLe : Str → Str → Bool
  | [], _ => true
  | _ :: _, [] => false
  | c :: s, d :: t => c.toNat < d.toNat || (c = d && strLe s t)

/-- What `qsort` leaves; the names differ. -/
def parspec : List Parspec := (inputParspec ++ wrkParspec).insertionSort fun a b => strLe a.name.toList b.name.toList = true

end Table

/-! ## The functions -/

section Functions

variable {D A : Type}

def decimal (n : ℕ) : Str := Nat.toDigits 10 n

/-- Nothing comes back from a call that fails an assertion; an error has a text, and the result is then `CLIS_PARAM`. -/
inductive Err
  | fault
  | text (t : Str)

def St.setUint (s : St D A) (m : Member) (u : ℕ) : St D A :=
  { s with master := { s.master with uint := Function.update s.master.uint m u } }

def St.setDouble (s : St D A) (m : DMember) (u : D) : St D A :=
  { s with master := { s.master with double := Function.update s.master.double m u } }

def tweakGenericTimeout (arg : Str) : Except Err ℕ :=
  let u := strtoul 0 arg % 2 ^ 32
  if u = 0 then .error (.text "Timeout must be greater than zero\n".toList) else .ok u

def tweakGenericBool (arg : Str) : Except Err ℕ :=
  let arg := arg.map Char.toLower
  if ["off".toList, "disable".toList, "no".toList, "false".toList].contains arg then .ok 0
  else if ["on".toList, "enable".toList, "yes".toList, "true".toList].contains arg then .ok 1
  else .error (.text "use \"on\" or \"off\"\n".toList)

/-- What `tweak_generic_uint` reads. -/
def readUint (arg : Str) : ℕ := if arg.map Char.toLower = "unlimited".toList then uintMax else strtoul 0 arg % 2 ^ 32

def tweakGenericUint (arg : Str) (min max : ℕ) : Except Err ℕ :=
  let u := readUint arg
  if u < min then .error (.text ("Must be at least ".toList ++ decimal min ++ ['\n']))
  else if max < u then .error (.text ("Must be no more than ".toList ++ decimal max ++ ['\n']))
  else .ok u

/-- `tweak_timeout_double` and `tweak_generic_double`, which differ in the text; NaN passes both comparisons. -/
def tweakDouble (env : Env D A) (must : Str) (arg : Str) (min max : ℕ) : Except Err D :=
  let u := env.strtod arg
  if env.lt u (env.ofNat min) then
    .error (.text (must ++ " be greater or equal to ".toList ++ env.printg (env.ofNat min) ++ ['\n']))
  else if env.lt (env.ofNat max) u then
    .error (.text (must ++ " be less than or equal to ".toList ++ env.printg (env.ofNat max) ++ ['\n']))
  else .ok u

def tweakUser (env : Env D A) (s : St D A) (arg : Str) : Except Err (St D A) :=
  match env.getpwnam (if arg = magicInitString then "nobody".toList else arg) with
  | none =>
    if arg = magicInitString then .ok { s with master := { s.master with uid := env.getuid } }
    else .error (.text "Unknown user".toList)
  | some pw =>
    -- the user's primary group, if its entry is found both ways
    let group := match (env.getgrgid pw.gid).bind fun gr => env.getgrnam gr.name with
      | some gr => if gr.gid = pw.gid then some gr.name else s.master.group
      | none => s.master.group
    .ok { s with master := { s.master with user := some pw.name, uid := pw.uid, gid := pw.gid, group := group } }

def tweakGroup (env : Env D A) (s : St D A) (arg : Str) : Except Err (St D A) :=
  match env.getgrnam (if arg = magicInitString then "nogroup".toList else arg) with
  | none =>
    if arg = magicInitString then
      .ok (if s.master.gid = 0 then { s with master := { s.master with gid := env.getgid } } else s)
    else .error (.text "Unknown group".toList)
  | some gr => .ok { s with master := { s.master with group := some gr.name, gid := gr.gid } }

/-- `quiet` is a call without a `struct cli`, which takes the addresses in front of the first bad one. -/
def tweakListenAddress (env : Env D A) (quiet : Bool) (s : St D A) (arg : Str) : Except Err (St D A) :=
  match parseArgv false true (arg.length + 1) arg with
  | .error (.text msg) => .error (.text ("Parse error: ".toList ++ msg.toList))
  | .error .fault => .error .fault
  | .ok [] => .error (.text "Empty listen address".toList)
  | .ok av =>
    let good := av.takeWhile fun a => !(env.resolve a).isEmpty
    match av.drop good.length, quiet with
    | a :: _, false => .error (.text ("Invalid listen address ".toList ++ vsbQuote a))
    | _, _ => .ok { s with
        master := { s.master with listenAddress := arg }, socks := good.flatMap fun a => (env.resolve a).map fun x => (a, x) }

/-- `VCA_tweak_waiter` -/
def tweakWaiter (env : Env D A) (s : St D A) (arg : Str) : Except Err (St D A) :=
  if arg = "default".toList then .ok { s with waiter := none }
  else if env.waiters.contains arg then .ok { s with waiter := some arg }
  else .error (.text "Unknown waiter".toList)

/-- 65536, or more where a thread needs it. -/
def stackArg (env : Env D A) (arg : Str) : Str := if arg = "32".toList then decimal (max 65536 env.stackMin) else arg

/-- The function of a parameter, with an argument. -/
def tweakSet (env : Env D A) (quiet : Bool) (pp : Parspec) (s : St D A) (arg : Str) : Except Err (St D A) :=
  match pp.func with
  | .user => tweakUser env s arg
  | .group => tweakGroup env s arg
  | .listenAddress => tweakListenAddress env quiet s arg
  | .ccCommand => .ok { s with ccCmd := arg }
  | .waiter => tweakWaiter env s arg
  | .diagBitmap => .ok (s.setUint .diagBitmap (strtoul 0 arg % 2 ^ 32))
  | .threadPoolMin => (tweakGenericUint arg pp.min (s.master.uint .wthreadMax)).map (s.setUint .wthreadMin)
  | .threadPoolMax => (tweakGenericUint arg (s.master.uint .wthreadMin) uintMax).map (s.setUint .wthreadMax)
  | .stackSize => (tweakGenericUint (stackArg env arg) env.stackMin pp.max).map (s.setUint .wthreadStacksize)
  | .uint m => (tweakGenericUint arg pp.min pp.max).map (s.setUint m)
  -- the bounds of the table are not looked at
  | .timeout m => (tweakGenericTimeout arg).map (s.setUint m)
  | .bool m => (tweakGenericBool arg).map (s.setUint m)
  | .timeoutDouble m => (tweakDouble env "Timeout must".toList arg pp.min pp.max).map (s.setDouble m)
  | .genericDouble m => (tweakDouble env "Must".toList arg pp.min pp.max).map (s.setDouble m)

/-- `%d` of an id as an `int` -/
def showInt (id : ℕ) : Str :=
  if id % 2 ^ 32 < 2 ^ 31 then decimal (id % 2 ^ 32) else '-' :: decimal (2 ^ 32 - id % 2 ^ 32)

def showName (name : Option Str) (id : ℕ) : Str :=
  match name with
  | some n => n ++ " (".toList ++ showInt id ++ [')']
  | none => showInt id

def showUint (u : ℕ) : Str := if u = uintMax then "unlimited".toList else decimal u

/-- And without one. -/
def tweakShow (env : Env D A) (pp : Parspec) (s : St D A) : Str :=
  match pp.func with
  | .user => showName s.master.user s.master.uid
  | .group => showName s.master.group s.master.gid
  | .listenAddress => vsbQuote s.master.listenAddress
  | .ccCommand => vsbQuote s.ccCmd
  | .waiter => s.waiter.getD "default".toList ++ " (".toList ++ (", ".toList).intercalate env.waiters ++ [')']
  | .diagBitmap => '0' :: 'x' :: Nat.toDigits 16 (s.master.uint .diagBitmap)
  | .threadPoolMin => showUint (s.master.uint .wthreadMin)
  | .threadPoolMax => showUint (s.master.uint .wthreadMax)
  | .stackSize => showUint (s.master.uint .wthreadStacksize)
  | .uint m => showUint (s.master.uint m)
  | .timeout m => decimal (s.master.uint m)
  | .bool m => if s.master.uint m = 0 then "off".toList else "on".toList
  | .timeoutDouble m | .genericDouble m => env.printf (s.master.double m)

/-- `MCF_ParamSync` -/
def mcfParamSync (s : St D A) : St D A := { s with shared := s.shared.map fun _ => s.master }

/-- `MCF_ParamSet`, with whether a child runs: the state, the result and the text. -/
def mcfParamSet (env : Env D A) (s : St D A) (name val : Str) (child : Bool) : Option (St D A × ℕ × Str) :=
  match parspec.find? fun pp => pp.name.toList = name with
  | none => some (s, 106, "Unknown parameter \"".toList ++ name ++ "\".".toList)
  | some pp =>
    match tweakSet env false pp s val with
    | .error .fault => none
    | .error (.text t) => some (mcfParamSync s, 106, t)
    | .ok s' => some (mcfParamSync s', 200,
        if child ∧ pp.flags &&& 4 ≠ 0 then "Change will take effect when child is restarted".toList
        else if pp.flags &&& 8 ≠ 0 then "Change will take effect when VCL script is reloaded".toList
        else [])

/-- One default of the first pass, which takes no notice of errors, and of the second, which ends at the first. -/
def setQuiet (env : Env D A) (s : St D A) (pp : Parspec) : Option (St D A) :=
  match tweakSet env true pp s (pp.dflt.getD env.vccCc) with
  | .error .fault => none
  | .error (.text _) => some s
  | .ok s' => some s'

def setDefault (env : Env D A) (s : St D A) (pp : Parspec) : Option (St D A) := (tweakSet env false pp s (pp.dflt.getD env.vccCc)).toOption

/-- `master` before anything is set. -/
def zero (env : Env D A) : St D A := ⟨⟨none, 0, none, 0, [], fun _ => 0, fun _ => env.ofNat 0⟩, none, [], none, []⟩

/-- `MCF_ParamInit` with all defaults taken; `main` ends otherwise. -/
def mcfParamInit (env : Env D A) : Option (St D A) :=
  (parspec.foldlM (setQuiet env) (zero env)).bind fun s => parspec.foldlM (setDefault env) s

inductive Act
  | paramSet (name val : Str) (child : Bool)
  | attach
  | startChild

/-- `param.set`, `VSL_MgtInit` and the start of a child. -/
def step (env : Env D A) (s : St D A) : Act → Option (St D A)
  | .paramSet name val child => (mcfParamSet env s name val child).map Prod.fst
  | .attach => some { s with shared := some s.master }
  | .startChild => some (mcfParamSync s)

end Functions

/-! ## What is checked -/

section Checked

variable {D A : Type} {env : Env D A} {s s' : St D A} {pp pp' : Parspec} {arg : Str} {u : ℕ} {quiet : Bool}

/-- What is true behind the function of the parameter. -/
def Good (env : Env D A) (pp : Parspec) (s : St D A) : Prop :=
  match pp.func with
  | .user => s.master.uid = env.getuid ∨
      ∃ n pw, env.getpwnam n = some pw ∧ s.master.user = some pw.name ∧ s.master.uid = pw.uid
  | .group | .ccCommand => True
  | .listenAddress => ∃ av, parseArgv false true (s.master.listenAddress.length + 1) s.master.listenAddress = .ok av ∧
      (∀ a ∈ av, env.resolve a ≠ []) ∧ s.socks = av.flatMap fun a => (env.resolve a).map fun x => (a, x)
  | .waiter => ∀ w ∈ s.waiter, w ∈ env.waiters
  | .diagBitmap => s.master.uint .diagBitmap ≤ uintMax
  | .threadPoolMin => pp.min ≤ s.master.uint .wthreadMin ∧ s.master.uint .wthreadMin ≤ s.master.uint .wthreadMax ∧
      s.master.uint .wthreadMin ≤ uintMax
  | .threadPoolMax => s.master.uint .wthreadMin ≤ s.master.uint .wthreadMax ∧ s.master.uint .wthreadMax ≤ uintMax
  | .stackSize => env.stackMin ≤ s.master.uint .wthreadStacksize ∧ s.master.uint .wthreadStacksize ≤ pp.max ∧
      s.master.uint .wthreadStacksize ≤ uintMax
  | .uint m => pp.min ≤ s.master.uint m ∧ s.master.uint m ≤ pp.max ∧ s.master.uint m ≤ uintMax
  | .timeout m => 0 < s.master.uint m ∧ s.master.uint m ≤ uintMax
  | .bool m => s.master.uint m ≤ 1
  | .timeoutDouble m | .genericDouble m =>
    env.lt (s.master.double m) (env.ofNat pp.min) = false ∧ env.lt (env.ofNat pp.max) (s.master.double m) = false

@[simp] theorem St.setUint_self (s : St D A) (m : Member) (u : ℕ) : (s.setUint m u).master.uint m = u := Function.update_self ..

theorem St.setUint_ne (s : St D A) {m n : Member} (u : ℕ) (h : n ≠ m) : (s.setUint m u).master.uint n = s.master.uint n :=
  Function.update_of_ne h _ _

@[simp] theorem St.setDouble_self (s : St D A) (m : DMember) (u : D) : (s.setDouble m u).master.double m = u :=
  Function.update_self ..

theorem St.setDouble_ne (s : St D A) {m n : DMember} (u : D) (h : n ≠ m) : (s.setDouble m u).master.double n = s.master.double n :=
  Function.update_of_ne h _ _

@[simp] theorem St.setUint_same (s : St D A) (m : Member) : s.setUint m (s.master.uint m) = s := by
  rw [St.setUint, Function.update_eq_self]

theorem readUint_le (arg : Str) : readUint arg ≤ uintMax := by
  unfold readUint
  split
  · exact Nat.le_refl _
  · have := Nat.mod_lt (strtoul 0 arg) (y := 2 ^ 32) (by decide)
    rw [uintMax]
    omega

theorem tweakGenericUint_ok {min max : ℕ} (h : tweakGenericUint arg min max = .ok u) : min ≤ u ∧ u ≤ max ∧ u ≤ uintMax := by
  unfold tweakGenericUint at h
  simp only at h
  split at h
  · cases h
  · next hmin =>
    split at h
    · cases h
    · next hmax =>
      cases h
      exact ⟨Nat.le_of_not_lt hmin, Nat.le_of_not_lt hmax, readUint_le arg⟩

theorem tweakGenericTimeout_ok (h : tweakGenericTimeout arg = .ok u) : 0 < u ∧ u ≤ uintMax := by
  have hu := Nat.mod_lt (strtoul 0 arg) (y := 2 ^ 32) (by decide)
  unfold tweakGenericTimeout at h
  simp only at h
  split at h
  · cases h
  · next hne =>
    cases h
    rw [uintMax]
    omega

theorem tweakGenericBool_ok (h : tweakGenericBool arg = .ok u) : u ≤ 1 := by
  unfold tweakGenericBool at h
  simp only at h
  split at h
  · cases h
    exact Nat.zero_le 1
  · split at h
    · cases h
      exact Nat.le_refl 1
    · cases h

theorem tweakDouble_ok {must : Str} {min max : ℕ} {x : D} (h : tweakDouble env must arg min max = .ok x) :
    env.lt x (env.ofNat min) = false ∧ env.lt (env.ofNat max) x = false := by
  unfold tweakDouble at h
  simp only at h
  split at h
  · cases h
  · next hmin =>
    split at h
    · cases h
    · next hmax =>
      cases h
      exact ⟨Bool.eq_false_iff.mpr hmin, Bool.eq_false_iff.mpr hmax⟩

theorem tweakListenAddress_ok (h : tweakListenAddress env false s arg = .ok s') : ∃ av, parseArgv false true (arg.length + 1) arg = .ok av ∧
    (∀ a ∈ av, env.resolve a ≠ []) ∧ s' = { s with
      master := { s.master with listenAddress := arg }, socks := av.flatMap fun a => (env.resolve a).map fun x => (a, x) } := by
  unfold tweakListenAddress at h
  split at h
  · cases h
  · cases h
  · cases h
  · next av hne hav =>
    simp only at h
    split at h
    · cases h
    · next hlast =>
      cases h
      have hdrop : av.drop (av.takeWhile fun a => !(env.resolve a).isEmpty).length = [] := by
        cases hd : av.drop (av.takeWhile fun a => !(env.resolve a).isEmpty).length with
        | nil => rfl
        | cons a t => exact absurd rfl (hlast a t hd)
      have hall : (av.takeWhile fun a => !(env.resolve a).isEmpty) = av := by
        have happ := List.takeWhile_append_dropWhile (p := fun a => !(env.resolve a).isEmpty) (l := av)
        have hlen := List.drop_eq_nil_iff.mp hdrop
        have hle := congrArg List.length happ
        rw [List.length_append] at hle
        have hnil : av.dropWhile (fun a => !(env.resolve a).isEmpty) = [] := List.length_eq_zero_iff.mp (by omega)
        rw [hnil, List.append_nil] at happ
        exact happ
      refine ⟨av, hav, fun a ha hnil => ?_, by rw [hall]⟩
      rw [← hall] at ha
      have := List.mem_takeWhile_imp ha
      rw [hnil] at this
      exact Bool.noConfusion this

theorem map_ok {X Y : Type} {f : X → Y} {x : Except Err X} {y : Y} (h : x.map f = .ok y) : ∃ a, x = .ok a ∧ y = f a := by
  cases x with
  | error e => cases h
  | ok a =>
    cases h
    exact ⟨a, rfl, rfl⟩

theorem tweakUser_ok (h : tweakUser env s arg = .ok s') : s'.master.uid = env.getuid ∨
    ∃ n pw, env.getpwnam n = some pw ∧ s'.master.user = some pw.name ∧ s'.master.uid = pw.uid := by
  unfold tweakUser at h
  split at h
  · split at h
    · cases h
      exact .inl rfl
    · cases h
  · next pw hpw =>
    cases h
    exact .inr ⟨_, pw, hpw, rfl, rfl⟩

/-- A parameter is good when it was set. -/
theorem tweakSet_good (h : tweakSet env false pp s arg = .ok s') : Good env pp s' := by
  unfold tweakSet at h
  unfold Good
  split at h <;> rename_i hf <;> simp only [hf]
  · exact tweakUser_ok h
  · obtain ⟨av, hav, hres, rfl⟩ := tweakListenAddress_ok h
    exact ⟨av, hav, hres, rfl⟩
  · unfold tweakWaiter at h
    split at h
    · cases h
      intro w hw
      cases hw
    · split at h
      · next hmem =>
        cases h
        intro w hw
        cases hw
        exact List.contains_iff_mem.mp hmem
      · cases h
  · cases h
    rw [St.setUint_self, uintMax]
    have := Nat.mod_lt (strtoul 0 arg) (y := 2 ^ 32) (by decide)
    omega
  · obtain ⟨u, hu, rfl⟩ := map_ok h
    rw [St.setUint_self, St.setUint_ne _ _ (by decide)]
    exact tweakGenericUint_ok hu
  · obtain ⟨u, hu, rfl⟩ := map_ok h
    rw [St.setUint_self, St.setUint_ne _ _ (by decide)]
    exact ⟨(tweakGenericUint_ok hu).1, (tweakGenericUint_ok hu).2.2⟩
  · obtain ⟨u, hu, rfl⟩ := map_ok h
    rw [St.setUint_self]
    exact tweakGenericUint_ok hu
  · obtain ⟨u, hu, rfl⟩ := map_ok h
    rw [St.setUint_self]
    exact tweakGenericUint_ok hu
  · obtain ⟨u, hu, rfl⟩ := map_ok h
    rw [St.setUint_self]
    exact tweakGenericTimeout_ok hu
  · obtain ⟨u, hu, rfl⟩ := map_ok h
    rw [St.setUint_self]
    exact tweakGenericBool_ok hu
  · obtain ⟨u, hu, rfl⟩ := map_ok h
    rw [St.setDouble_self]
    exact tweakDouble_ok hu
  · obtain ⟨u, hu, rfl⟩ := map_ok h
    rw [St.setDouble_self]
    exact tweakDouble_ok hu

end Checked

/-! ## Set as it is shown -/

section Shown

variable {D A : Type} {env : Env D A} {s : St D A} {pp : Parspec} {u : ℕ}

/-- The functions that show a number, or on and off. -/
def Tweak.IsNumber : Tweak → Prop
  | .uint _ | .timeout _ | .bool _ | .diagBitmap | .threadPoolMin | .threadPoolMax | .stackSize => True
  | _ => False

instance : (f : Tweak) → Decidable f.IsNumber
  | .uint _ | .timeout _ | .bool _ | .diagBitmap | .threadPoolMin | .threadPoolMax | .stackSize => isTrue trivial
  | .user | .group | .listenAddress | .ccCommand | .waiter | .timeoutDouble _ | .genericDouble _ => isFalse id

/-- A decimal number is no word. -/
theorem decimal_ne (u : ℕ) : (decimal u).map Char.toLower ≠ "unlimited".toList := by
  have hword : "unlimited".toList = 'u' :: "nlimited".toList := by decide +kernel
  rw [hword]
  intro h
  rcases Nat.eq_zero_or_pos u with rfl | hpos
  · exact absurd (List.cons.inj h).1 (by decide)
  · obtain ⟨d, t, he, -, hd⟩ := head_toDigits (b := 10) (by decide) (by decide) hpos
    rw [decimal, he, List.map_cons] at h
    have hne : (Nat.digitChar d).toLower ≠ 'u' := by
      interval_cases d <;> decide
    exact hne (List.cons.inj h).1

theorem strtoul_small (h : u ≤ uintMax) : strtoul 0 (decimal u) % 2 ^ 32 = u := by
  rw [uintMax] at h
  rw [decimal, strtoul_decimal (by omega), Nat.mod_eq_of_lt (by omega)]

theorem readUint_show (h : u ≤ uintMax) : readUint (showUint u) = u := by
  rw [showUint]
  split
  · next hu =>
    rw [hu]
    decide +kernel
  · rw [readUint, if_neg (decimal_ne u), strtoul_small h]

theorem tweakGenericUint_show {min max : ℕ} (h1 : min ≤ u) (h2 : u ≤ max) (h3 : u ≤ uintMax) :
    tweakGenericUint (showUint u) min max = .ok u := by
  unfold tweakGenericUint
  rw [readUint_show h3]
  simp only
  rw [if_neg (Nat.not_lt.mpr h1), if_neg (Nat.not_lt.mpr h2)]

/-- A stack size above 32 is not shown as the word for 32-bit systems. -/
theorem stackArg_show (h : 32 < u) (hu : u ≤ uintMax) : stackArg env (showUint u) = showUint u := by
  rw [stackArg, if_neg fun he => ?_]
  have hread := readUint_show hu
  rw [he] at hread
  have h32 : readUint "32".toList = 32 := by decide +kernel
  omega

theorem tweakGenericBool_show : tweakGenericBool "off".toList = .ok 0 ∧ tweakGenericBool "on".toList = .ok 1 := by
  have hoff : ["off".toList, "disable".toList, "no".toList, "false".toList].contains ("off".toList.map Char.toLower) = true := by
    decide +kernel
  have hneg : ["off".toList, "disable".toList, "no".toList, "false".toList].contains ("on".toList.map Char.toLower) = false := by
    decide +kernel
  have hon : ["on".toList, "enable".toList, "yes".toList, "true".toList].contains ("on".toList.map Char.toLower) = true := by
    decide +kernel
  constructor
  · unfold tweakGenericBool
    simp only
    rw [if_pos hoff]
  · unfold tweakGenericBool
    simp only
    rw [hneg, if_neg Bool.false_ne_true, if_pos hon]

/-- A number that is set as it is shown stays as it is. -/
theorem tweakSet_show (hg : Good env pp s) (hn : pp.func.IsNumber) (hs : 32 < env.stackMin) :
    tweakSet env false pp s (tweakShow env pp s) = .ok s := by
  have hmap {m : Member} {x : Except Err ℕ} (hx : x = .ok (s.master.uint m)) : x.map (s.setUint m) = .ok s := by
    rw [hx]
    exact congrArg Except.ok (s.setUint_same m)
  unfold Good at hg
  unfold tweakSet tweakShow
  split at hg <;> rename_i hf <;> rw [hf] at hn <;> simp only [hf]
  · exact hn.elim
  · exact hn.elim
  · exact hn.elim
  · exact hn.elim
  · exact hn.elim
  · have hlt : s.master.uint .diagBitmap < 2 ^ 32 := by
      rw [uintMax] at hg
      omega
    rw [strtoul_hex (by omega), Nat.mod_eq_of_lt hlt, St.setUint_same]
  · exact hmap (tweakGenericUint_show hg.1 hg.2.1 hg.2.2)
  · exact hmap (tweakGenericUint_show hg.1 hg.2 hg.2)
  · rw [stackArg_show (by omega) hg.2.2]
    exact hmap (tweakGenericUint_show hg.1 hg.2.1 hg.2.2)
  · exact hmap (tweakGenericUint_show hg.1 hg.2.1 hg.2.2)
  · refine hmap ?_
    unfold tweakGenericTimeout
    rw [strtoul_small hg.2]
    exact if_neg (by omega)
  · refine hmap ?_
    rcases Nat.le_one_iff_eq_zero_or_eq_one.mp hg with h0 | h1
    · rw [h0, if_pos rfl]
      exact tweakGenericBool_show.1
    · rw [h1, if_neg Nat.one_ne_zero]
      exact tweakGenericBool_show.2
  · exact hn.elim
  · exact hn.elim

end Shown

/-! ## What is left alone -/

section Alone

variable {D A : Type} {env : Env D A} {s s' : St D A} {pp pp' : Parspec} {arg : Str} {quiet : Bool} {f f' : Tweak}

def Tweak.members : Tweak → List Member
  | .diagBitmap => [.diagBitmap]
  | .threadPoolMin => [.wthreadMin]
  | .threadPoolMax => [.wthreadMax]
  | .stackSize => [.wthreadStacksize]
  | .uint m | .timeout m | .bool m => [m]
  | _ => []

def Tweak.dmembers : Tweak → List DMember
  | .timeoutDouble m | .genericDouble m => [m]
  | _ => []

/-- What a function does not write. -/
structure Leaves (f : Tweak) (s s' : St D A) : Prop where
  uint : ∀ m, m ∉ f.members → s'.master.uint m = s.master.uint m
  double : ∀ m, m ∉ f.dmembers → s'.master.double m = s.master.double m
  listen : f ≠ .listenAddress → s'.master.listenAddress = s.master.listenAddress ∧ s'.socks = s.socks
  waiter : f ≠ .waiter → s'.waiter = s.waiter
  ccCmd : f ≠ .ccCommand → s'.ccCmd = s.ccCmd
  user : f ≠ .user → s'.master.user = s.master.user ∧ s'.master.uid = s.master.uid
  group : f ≠ .user → f ≠ .group → s'.master.group = s.master.group ∧ s'.master.gid = s.master.gid
  shared : s'.shared = s.shared

theorem leaves_refl (f : Tweak) (s : St D A) : Leaves f s s :=
  ⟨fun _ _ => rfl, fun _ _ => rfl, fun _ => ⟨rfl, rfl⟩, fun _ => rfl, fun _ => rfl, fun _ => ⟨rfl, rfl⟩, fun _ _ => ⟨rfl, rfl⟩, rfl⟩

theorem leaves_setUint {m : Member} (hm : f.members = [m]) (u : ℕ) : Leaves f s (s.setUint m u) :=
  ⟨fun n hn => s.setUint_ne u fun he => hn (by rw [hm, he]; exact List.mem_singleton_self m), fun _ _ => rfl, fun _ => ⟨rfl, rfl⟩,
    fun _ => rfl, fun _ => rfl, fun _ => ⟨rfl, rfl⟩, fun _ _ => ⟨rfl, rfl⟩, rfl⟩

theorem leaves_setDouble {m : DMember} (hm : f.dmembers = [m]) (u : D) : Leaves f s (s.setDouble m u) :=
  ⟨fun _ _ => rfl, fun n hn => s.setDouble_ne u fun he => hn (by rw [hm, he]; exact List.mem_singleton_self m), fun _ => ⟨rfl, rfl⟩,
    fun _ => rfl, fun _ => rfl, fun _ => ⟨rfl, rfl⟩, fun _ _ => ⟨rfl, rfl⟩, rfl⟩

theorem tweakSet_leaves (h : tweakSet env quiet pp s arg = .ok s') : Leaves pp.func s s' := by
  unfold tweakSet at h
  split at h <;> rename_i hf <;> rw [hf]
  · unfold tweakUser at h
    split at h
    · split at h
      · cases h
        exact ⟨fun _ _ => rfl, fun _ _ => rfl, fun _ => ⟨rfl, rfl⟩, fun _ => rfl, fun _ => rfl, fun h => absurd rfl h,
          fun h => absurd rfl h, rfl⟩
      · cases h
    · cases h
      exact ⟨fun _ _ => rfl, fun _ _ => rfl, fun _ => ⟨rfl, rfl⟩, fun _ => rfl, fun _ => rfl, fun h => absurd rfl h,
        fun h => absurd rfl h, rfl⟩
  · unfold tweakGroup at h
    split at h
    · split at h
      · cases h
        split
        · exact ⟨fun _ _ => rfl, fun _ _ => rfl, fun _ => ⟨rfl, rfl⟩, fun _ => rfl, fun _ => rfl, fun _ => ⟨rfl, rfl⟩,
            fun _ h => absurd rfl h, rfl⟩
        · exact leaves_refl _ s
      · cases h
    · cases h
      exact ⟨fun _ _ => rfl, fun _ _ => rfl, fun _ => ⟨rfl, rfl⟩, fun _ => rfl, fun _ => rfl, fun _ => ⟨rfl, rfl⟩,
        fun _ h => absurd rfl h, rfl⟩
  · unfold tweakListenAddress at h
    split at h
    · cases h
    · cases h
    · cases h
    · simp only at h
      split at h
      · cases h
      · cases h
        exact ⟨fun _ _ => rfl, fun _ _ => rfl, fun h => absurd rfl h, fun _ => rfl, fun _ => rfl, fun _ => ⟨rfl, rfl⟩,
          fun _ _ => ⟨rfl, rfl⟩, rfl⟩
  · cases h
    exact ⟨fun _ _ => rfl, fun _ _ => rfl, fun _ => ⟨rfl, rfl⟩, fun _ => rfl, fun h => absurd rfl h, fun _ => ⟨rfl, rfl⟩,
      fun _ _ => ⟨rfl, rfl⟩, rfl⟩
  · unfold tweakWaiter at h
    split at h
    · cases h
      exact ⟨fun _ _ => rfl, fun _ _ => rfl, fun _ => ⟨rfl, rfl⟩, fun h => absurd rfl h, fun _ => rfl, fun _ => ⟨rfl, rfl⟩,
        fun _ _ => ⟨rfl, rfl⟩, rfl⟩
    · split at h
      · cases h
        exact ⟨fun _ _ => rfl, fun _ _ => rfl, fun _ => ⟨rfl, rfl⟩, fun h => absurd rfl h, fun _ => rfl, fun _ => ⟨rfl, rfl⟩,
          fun _ _ => ⟨rfl, rfl⟩, rfl⟩
      · cases h
  · cases h
    exact leaves_setUint rfl _
  · obtain ⟨u, -, rfl⟩ := map_ok h
    exact leaves_setUint rfl u
  · obtain ⟨u, -, rfl⟩ := map_ok h
    exact leaves_setUint rfl u
  · obtain ⟨u, -, rfl⟩ := map_ok h
    exact leaves_setUint rfl u
  · obtain ⟨u, -, rfl⟩ := map_ok h
    exact leaves_setUint rfl u
  · obtain ⟨u, -, rfl⟩ := map_ok h
    exact leaves_setUint rfl u
  · obtain ⟨u, -, rfl⟩ := map_ok h
    exact leaves_setUint rfl u
  · obtain ⟨u, -, rfl⟩ := map_ok h
    exact leaves_setDouble rfl u
  · obtain ⟨u, -, rfl⟩ := map_ok h
    exact leaves_setDouble rfl u

/-- Two functions that write different members. -/
structure Apart (f f' : Tweak) : Prop where
  ne : f ≠ f'
  uint : ∀ m ∈ f.members, m ∉ f'.members
  double : ∀ m ∈ f.dmembers, m ∉ f'.dmembers
  -- the two that look at one another
  min : .wthreadMin ∈ f.members → f = .threadPoolMin
  max : .wthreadMax ∈ f.members → f = .threadPoolMax

theorem mem_parspec : pp ∈ parspec ↔ pp ∈ inputParspec ++ wrkParspec := List.mem_insertionSort _

/-- The table, in one evaluation: names, functions and members come once. -/
theorem table_nodup : ((inputParspec ++ wrkParspec).map Parspec.name).Nodup ∧ ((inputParspec ++ wrkParspec).map Parspec.func).Nodup ∧
    ((inputParspec ++ wrkParspec).flatMap fun pp => pp.func.members).Nodup ∧
    ((inputParspec ++ wrkParspec).flatMap fun pp => pp.func.dmembers).Nodup ∧
    ∀ pp ∈ inputParspec ++ wrkParspec, (.wthreadMin ∈ pp.func.members → pp.func = .threadPoolMin) ∧
      (.wthreadMax ∈ pp.func.members → pp.func = .threadPoolMax) := by decide +kernel

theorem disjoint_of_flatMap {X Y : Type} {f : X → List Y} {l : List X} {a b : X} (h : (l.flatMap f).Nodup) (ha : a ∈ l)
    (hb : b ∈ l) (hab : a ≠ b) : (f a).Disjoint (f b) := by
  have hsymm : Std.Symm (Function.onFun List.Disjoint f) := ⟨fun _ _ h _ hb ha => h ha hb⟩
  exact (List.nodup_flatMap.mp h).2.forall ha hb hab

/-- Different parameters of the table are apart. -/
theorem parspec_apart (hpp : pp ∈ parspec) (hpp' : pp' ∈ parspec) (hne : pp.name ≠ pp'.name) : Apart pp.func pp'.func := by
  rw [mem_parspec] at hpp hpp'
  obtain ⟨-, hfunc, hmem, hdmem, hpool⟩ := table_nodup
  have hpq : pp ≠ pp' := fun he => hne (congrArg Parspec.name he)
  exact ⟨fun he => hpq (List.inj_on_of_nodup_map hfunc hpp hpp' he), fun m h h' => disjoint_of_flatMap hmem hpp hpp' hpq h h',
    fun m h h' => disjoint_of_flatMap hdmem hpp hpp' hpq h h', (hpool pp hpp).1, (hpool pp hpp).2⟩

/-- No two parameters of the table have one name. -/
theorem parspec_names (hpp : pp ∈ parspec) (hpp' : pp' ∈ parspec) (he : pp.name = pp'.name) : pp = pp' :=
  List.inj_on_of_nodup_map table_nodup.1 (mem_parspec.mp hpp) (mem_parspec.mp hpp') he

/-- A parameter that was good is when another one is set. -/
theorem Good.other (hg : Good env pp' s) (hl : Leaves pp.func s s') (hpp : Good env pp s') (ha : Apart pp.func pp'.func) :
    Good env pp' s' := by
  have huint {m : Member} (hm : m ∈ pp'.func.members) : s'.master.uint m = s.master.uint m := hl.uint m fun h => ha.uint m h hm
  have hdouble {m : DMember} (hm : m ∈ pp'.func.dmembers) : s'.master.double m = s.master.double m :=
    hl.double m fun h => ha.double m h hm
  unfold Good at hg ⊢
  split at hg <;> rename_i hf
  · rw [(hl.user fun h => ha.ne (h.trans hf.symm)).1, (hl.user fun h => ha.ne (h.trans hf.symm)).2]
    exact hg
  · exact trivial
  · exact trivial
  · obtain ⟨h1, h2⟩ := hl.listen fun h => ha.ne (h.trans hf.symm)
    rw [h1, h2]
    exact hg
  · rw [hl.waiter fun h => ha.ne (h.trans hf.symm)]
    exact hg
  · rw [huint (by rw [hf]; exact List.mem_singleton_self _)]
    exact hg
  · have hmin := huint (m := .wthreadMin) (by rw [hf]; exact List.mem_singleton_self _)
    rw [hmin]
    refine ⟨hg.1, ?_, hg.2.2⟩
    by_cases hmax : .wthreadMax ∈ pp.func.members
    · -- the other bound is the one that is set
      have hset := hpp
      rw [Good, ha.max hmax] at hset
      rw [← hmin]
      exact hset.1
    · rw [hl.uint _ hmax]
      exact hg.2.1
  · have hmax := huint (m := .wthreadMax) (by rw [hf]; exact List.mem_singleton_self _)
    rw [hmax]
    refine ⟨?_, hg.2⟩
    by_cases hmin : .wthreadMin ∈ pp.func.members
    · have hset := hpp
      rw [Good, ha.min hmin] at hset
      rw [← hmax]
      exact hset.2.1
    · rw [hl.uint _ hmin]
      exact hg.1
  · rw [huint (by rw [hf]; exact List.mem_singleton_self _)]
    exact hg
  · rw [huint (by rw [hf]; exact List.mem_singleton_self _)]
    exact hg
  · rw [huint (by rw [hf]; exact List.mem_singleton_self _)]
    exact hg
  · rw [huint (by rw [hf]; exact List.mem_singleton_self _)]
    exact hg
  · rw [hdouble (by rw [hf]; exact List.mem_singleton_self _)]
    exact hg
  · rw [hdouble (by rw [hf]; exact List.mem_singleton_self _)]
    exact hg

/-- What is shown of another parameter stays, but for the group of a user. -/
theorem tweakShow_leaves (hl : Leaves pp.func s s') (ha : Apart pp.func pp'.func) (hg : ¬ (pp.func = .user ∧ pp'.func = .group)) :
    tweakShow env pp' s' = tweakShow env pp' s := by
  have huint {m : Member} (hm : m ∈ pp'.func.members) : s'.master.uint m = s.master.uint m := hl.uint m fun h => ha.uint m h hm
  have hdouble {m : DMember} (hm : m ∈ pp'.func.dmembers) : s'.master.double m = s.master.double m :=
    hl.double m fun h => ha.double m h hm
  have hne {f : Tweak} (hf : pp'.func = f) : pp.func ≠ f := fun h => ha.ne (h.trans hf.symm)
  unfold tweakShow
  split <;> rename_i hf
  · rw [(hl.user (hne hf)).1, (hl.user (hne hf)).2]
  · obtain ⟨h1, h2⟩ := hl.group (fun h => hg ⟨h, hf⟩) (hne hf)
    rw [h1, h2]
  · rw [(hl.listen (hne hf)).1]
  · rw [hl.ccCmd (hne hf)]
  · rw [hl.waiter (hne hf)]
  · rw [huint (by rw [hf]; exact List.mem_singleton_self _)]
  · rw [huint (by rw [hf]; exact List.mem_singleton_self _)]
  · rw [huint (by rw [hf]; exact List.mem_singleton_self _)]
  · rw [huint (by rw [hf]; exact List.mem_singleton_self _)]
  · rw [huint (by rw [hf]; exact List.mem_singleton_self _)]
  · rw [huint (by rw [hf]; exact List.mem_singleton_self _)]
  · rw [huint (by rw [hf]; exact List.mem_singleton_self _)]
  · rw [hdouble (by rw [hf]; exact List.mem_singleton_self _)]
  · rw [hdouble (by rw [hf]; exact List.mem_singleton_self _)]

end Alone

/-! ## Runs -/

section Runs

variable {D A : Type} {env : Env D A} {s s' s₀ : St D A} {pp q : Parspec} {name val arg : Str}

theorem good_set (hq : q ∈ parspec) (hpp : pp ∈ parspec) (hg : Good env pp s) (h : tweakSet env false q s arg = .ok s') :
    Good env pp s' := by
  by_cases hn : q.name = pp.name
  · cases parspec_names hq hpp hn
    exact tweakSet_good h
  · exact hg.other (tweakSet_leaves h) (tweakSet_good h) (parspec_apart hq hpp hn)

theorem setDefault_ok (h : setDefault env s pp = some s') : tweakSet env false pp s (pp.dflt.getD env.vccCc) = .ok s' := by
  rw [setDefault] at h
  cases ht : tweakSet env false pp s (pp.dflt.getD env.vccCc) with
  | error e =>
    rw [ht] at h
    cases h
  | ok s1 =>
    rw [ht] at h
    cases h
    rfl

/-- The defaults one after another: what was good is, and so is what was set. -/
theorem defaults_good {l : List Parspec} {P : Parspec → Prop} (hl : ∀ pp ∈ l, pp ∈ parspec)
    (hP : ∀ pp, P pp → pp ∈ parspec ∧ Good env pp s) (h : l.foldlM (setDefault env) s = some s') :
    ∀ pp, P pp ∨ pp ∈ l → Good env pp s' := by
  induction l generalizing s P with
  | nil =>
    cases h
    exact fun pp hpp => (hP pp (hpp.resolve_right List.not_mem_nil)).2
  | cons q l ih =>
    rw [List.foldlM_cons] at h
    obtain ⟨s1, h1, h⟩ := Option.bind_eq_some_iff.mp h
    have hq := hl q List.mem_cons_self
    have hset := setDefault_ok h1
    have hgood := ih (P := fun pp => P pp ∨ pp = q) (fun pp hpp => hl pp (List.mem_cons_of_mem q hpp)) (fun pp hpp => ?_) h
    · intro pp hpp
      refine hgood pp ?_
      rcases hpp with hp | hp
      · exact .inl (.inl hp)
      · rcases List.mem_cons.mp hp with rfl | hp
        · exact .inl (.inr rfl)
        · exact .inr hp
    · rcases hpp with hp | rfl
      · exact ⟨(hP pp hp).1, good_set hq (hP pp hp).1 (hP pp hp).2 hset⟩
      · exact ⟨hq, tweakSet_good hset⟩

theorem quiet_shared {l : List Parspec} (h : l.foldlM (setQuiet env) s = some s') : s'.shared = s.shared := by
  induction l generalizing s with
  | nil =>
    cases h
    rfl
  | cons q l ih =>
    rw [List.foldlM_cons] at h
    obtain ⟨s1, h1, h⟩ := Option.bind_eq_some_iff.mp h
    rw [ih h]
    unfold setQuiet at h1
    split at h1
    · cases h1
    · cases h1
      rfl
    · next s2 ht =>
      cases h1
      exact (tweakSet_leaves ht).shared

theorem defaults_shared {l : List Parspec} (h : l.foldlM (setDefault env) s = some s') : s'.shared = s.shared := by
  induction l generalizing s with
  | nil =>
    cases h
    rfl
  | cons q l ih =>
    rw [List.foldlM_cons] at h
    obtain ⟨s1, h1, h⟩ := Option.bind_eq_some_iff.mp h
    rw [ih h]
    exact (tweakSet_leaves (setDefault_ok h1)).shared

/-- All parameters are good, and what the child sees is what the manager has. -/
structure Inv (env : Env D A) (s : St D A) : Prop where
  good : ∀ pp ∈ parspec, Good env pp s
  shared : ∀ p ∈ s.shared, p = s.master

theorem init_inv (h : mcfParamInit env = some s) : Inv env s := by
  unfold mcfParamInit at h
  obtain ⟨s1, h1, h2⟩ := Option.bind_eq_some_iff.mp h
  refine ⟨fun pp hpp => ?_, fun p hp => ?_⟩
  · exact defaults_good (P := fun _ => False) (fun _ hm => hm) (fun _ hf => hf.elim) h2 pp (.inr hpp)
  · rw [defaults_shared h2, quiet_shared h1] at hp
    cases hp

theorem sync_eq (h : ∀ p ∈ s.shared, p = s.master) : mcfParamSync s = s := by
  obtain ⟨master, shared, ccCmd, waiter, socks⟩ := s
  cases shared with
  | none => rfl
  | some p =>
    have hp : p = master := h p rfl
    rw [mcfParamSync, hp]
    rfl

theorem good_sync (h : Good env pp s) : Good env pp (mcfParamSync s) := by
  unfold Good at h ⊢
  exact h

theorem sync_shared (s : St D A) : ∀ p ∈ (mcfParamSync s).shared, p = (mcfParamSync s).master := by
  intro p hp
  obtain ⟨-, -, he⟩ := Option.map_eq_some_iff.mp hp
  exact he.symm

/-- `MCF_ParamSet`: an error leaves everything, and a value is set by its function. -/
theorem mcfParamSet_spec (hs : Inv env s) {child : Bool} {status : ℕ} {text : Str}
    (h : mcfParamSet env s name val child = some (s', status, text)) : (status = 106 ∧ s' = s) ∨
      (status = 200 ∧ ∃ pp ∈ parspec, pp.name.toList = name ∧ ∃ s1, tweakSet env false pp s val = .ok s1 ∧ s' = mcfParamSync s1) := by
  unfold mcfParamSet at h
  split at h
  · cases h
    exact .inl ⟨rfl, rfl⟩
  · next pp hf =>
    split at h
    · cases h
    · cases h
      exact .inl ⟨rfl, sync_eq hs.shared⟩
    · next s1 ht =>
      cases h
      exact .inr ⟨rfl, pp, List.mem_of_find?_eq_some hf, by simpa using List.find?_some hf, s1, ht, rfl⟩

theorem step_inv {a : Act} (hs : Inv env s) (h : step env s a = some s') : Inv env s' := by
  cases a with
  | paramSet name val child =>
    rw [step, Option.map_eq_some_iff] at h
    obtain ⟨⟨s1, status, text⟩, h1, rfl⟩ := h
    rcases mcfParamSet_spec hs h1 with ⟨-, he⟩ | ⟨-, pp, hpp, -, s2, ht, he⟩
    · rw [he]
      exact hs
    · show Inv env s1
      rw [he]
      exact ⟨fun pp' hpp' => good_sync (good_set hpp hpp' (hs.good pp' hpp') ht), sync_shared s2⟩
  | attach =>
    cases h
    refine ⟨hs.good, fun p hp => ?_⟩
    cases hp
    rfl
  | startChild =>
    cases h
    rw [sync_eq hs.shared]
    exact hs

/-- After any commands: every parameter is what its function lets through, in the two bounds of the thread pools too; the child
sees what the manager has; a command that fails changes nothing; and one that succeeds changes what is shown of that parameter
only, and of the group with a user. -/
theorem reach_params (h0 : mcfParamInit env = some s₀) (hr : Reach (step env) (fun _ _ => True) s₀ s) :
    (∀ pp ∈ parspec, Good env pp s) ∧ (∀ p ∈ s.shared, p = s.master) ∧
      ∀ name val child s' status text, mcfParamSet env s name val child = some (s', status, text) →
        (status = 106 ∧ s' = s) ∨ (status = 200 ∧ ∃ pp ∈ parspec, pp.name.toList = name ∧ ∀ pp' ∈ parspec, pp'.name.toList ≠ name →
          ¬ (pp.func = .user ∧ pp'.func = .group) → tweakShow env pp' s' = tweakShow env pp' s) := by
  have hs : Inv env s := hr.inv (init_inv h0) fun s a s' hs _ he => step_inv hs he
  refine ⟨hs.good, hs.shared, fun name val child s' status text h => ?_⟩
  rcases mcfParamSet_spec hs h with he | ⟨hst, pp, hpp, hname, s1, ht, rfl⟩
  · exact .inl he
  · refine .inr ⟨hst, pp, hpp, hname, fun pp' hpp' hne hg => ?_⟩
    have hshow : tweakShow env pp' (mcfParamSync s1) = tweakShow env pp' s1 := by
      unfold tweakShow
      rfl
    rw [hshow]
    exact tweakShow_leaves (tweakSet_leaves ht) (parspec_apart hpp hpp' fun he => hne (he ▸ hname)) hg

/-- In every reachable state a number that is set as it is shown is taken, and nothing changes. -/
theorem reach_shown (h0 : mcfParamInit env = some s₀) (hr : Reach (step env) (fun _ _ => True) s₀ s) (hpp : pp ∈ parspec)
    (hn : pp.func.IsNumber) (hs : 32 < env.stackMin) (child : Bool) :
    ∃ text, mcfParamSet env s pp.name.toList (tweakShow env pp s) child = some (s, 200, text) := by
  have hi : Inv env s := hr.inv (init_inv h0) fun s a s' hs _ he => step_inv hs he
  have hfind : (parspec.find? fun pp' => pp'.name.toList = pp.name.toList) = some pp := by
    cases hf : parspec.find? fun pp' => pp'.name.toList = pp.name.toList with
    | none => exact absurd (List.find?_eq_none.mp hf pp hpp) (by simp)
    | some q =>
      have hname := List.find?_some hf
      rw [decide_eq_true_eq, String.toList_inj] at hname
      rw [parspec_names (List.mem_of_find?_eq_some hf) hpp hname]
  unfold mcfParamSet
  rw [hfind]
  simp only [tweakSet_show (hi.good pp hpp) hn hs]
  rw [sync_eq hi.shared]
  exact ⟨_, rfl⟩

/-- A system without the user nobody.  The numbers are thousandths. -/
def plainEnv : Env ℕ ℕ where
  strtod s := if s = "60".toList then 60000 else if s = "0.4".toList then 400 else if s = "0.050".toList then 50
    else if s = "0.001".toList then 1 else if s = "0.900".toList then 900 else 0
  lt a b := a < b
  ofNat n := 1000 * n
  printf n := decimal (n / 1000) ++ '.' :: decimal (n / 100 % 10) ++ decimal (n / 10 % 10) ++ decimal (n % 10) ++ "000".toList
  printg n := decimal (n / 1000)
  getpwnam _ := none
  getgrgid _ := none
  getgrnam _ := none
  getuid := 0
  getgid := 0
  resolve s := if s = ":80".toList then [80] else []
  waiters := ["epoll".toList, "poll".toList]
  stackMin := 16384
  vccCc := "cc".toList

/-- The most threads are set below the fewest, which is refused, and then with the fewest in front. -/
def poolRun : List Act :=
  [.attach, .paramSet "thread_pool_max".toList "4".toList false, .paramSet "thread_pool_min".toList "3".toList false,
    .paramSet "thread_pool_max".toList "4".toList true, .startChild]

theorem poolRun_eval : (∃ s₀, mcfParamInit plainEnv = some s₀ ∧ ∃ s, poolRun.foldlM (step plainEnv) s₀ = some s ∧
    s.master.uint .wthreadMin = 3 ∧ s.master.uint .wthreadMax = 4) := by
  have hrun : ((mcfParamInit plainEnv).any fun s₀ => (poolRun.foldlM (step plainEnv) s₀).any fun s =>
      s.master.uint .wthreadMin == 3 && s.master.uint .wthreadMax == 4) = true := by decide +kernel
  simpa only [Option.any_eq_true, Bool.and_eq_true, beq_iff_eq] using hrun

theorem poolRun_ends : ∃ s₀ s, mcfParamInit plainEnv = some s₀ ∧ Reach (step plainEnv) (fun _ _ => True) s₀ s ∧
    s.master.uint .wthreadMin = 3 ∧ s.master.uint .wthreadMax = 4 := by
  obtain ⟨s₀, h0, s, hs, he⟩ := poolRun_eval
  have hok : OkRun (step plainEnv) (fun _ _ => True) s₀ poolRun := by
    exact ⟨trivial, fun _ _ => ⟨trivial, fun _ _ => ⟨trivial, fun _ _ => ⟨trivial, fun _ _ => ⟨trivial, fun _ _ => trivial⟩⟩⟩⟩⟩
  exact ⟨s₀, s, h0, Reach.of_run hok hs, he⟩

theorem reach_params_poolRun : ∃ s : St ℕ ℕ, s.master.uint .wthreadMin = 3 ∧ (∀ pp ∈ parspec, Good plainEnv pp s) ∧
    ∀ p ∈ s.shared, p = s.master := by
  obtain ⟨s₀, s, h0, hr, hmin, -⟩ := poolRun_ends
  obtain ⟨hg, hshared, -⟩ := reach_params h0 hr
  exact ⟨s, hmin, hg, hshared⟩

theorem reach_shown_poolRun : ∃ (s : St ℕ ℕ) (pp : Parspec), s.master.uint .wthreadMax = 4 ∧ pp.name = "thread_pool_max" ∧
    ∃ text, mcfParamSet plainEnv s pp.name.toList (tweakShow plainEnv pp s) true = some (s, 200, text) := by
  obtain ⟨s₀, s, h0, hr, -, hmax⟩ := poolRun_ends
  have hpp : ⟨"thread_pool_max", .threadPoolMax, 1, 0, 3, some "500".toList⟩ ∈ parspec :=
    mem_parspec.mpr (List.mem_append_right _ (.tail _ (.head _)))
  exact ⟨s, _, hmax, rfl, reach_shown h0 hr hpp trivial (by decide) true⟩

end Runs

end Varnish.Mgt.Param
