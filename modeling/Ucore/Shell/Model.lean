import Ucore.Lib.CString

/-!
# The shell (`lab8/user/sh.c`)

`gettoken` works in place: it overwrites the white space and the symbols of the command line by zeros.  A call
of the system is an event, and `env` gives the return value of the last event of a history.  Each loop has a
bound on its turns, `none` stands for a loop that is not done by then.
-/

namespace Ucore.Shell

open CString Memory

def BUFSIZE : ℕ := 4096

def EXEC_MAX_ARG_NUM : ℕ := 32

def E_NOENT : ℤ := 16

def O_RDONLY : ℕ := 0

def O_RDWR : ℕ := 2

def O_CREAT : ℕ := 4

def O_TRUNC : ℕ := 16

/-- The characters of `" \t\r\n"`. -/
def WHITESPACE : List UInt8 := [0x20, 0x09, 0x0d, 0x0a]

/-- The characters of `"<|>&;"`. -/
def SYMBOLS : List UInt8 := [0x3c, 0x7c, 0x3e, 0x26, 0x3b]

/-! ### `gettoken` -/

/-- The loop over the white space from `s` on. -/
def skipWhite (m : Mem) : ℕ → ℕ → Option (Mem × ℕ)
  | 0, _ => none
  | bound + 1, s =>
    if WHITESPACE.contains (m s) then skipWhite (Function.update m s 0) bound (s + 1) else some (m, s)

/-- The loop over a word; `flag` is set between double quotes. -/
def scanWord (m : Mem) : ℕ → ℕ → Bool → Option (Mem × ℕ)
  | 0, _, _ => none
  | bound + 1, s, flag =>
    if m s ≠ 0 ∧ (flag ∨ ¬ (WHITESPACE ++ SYMBOLS).contains (m s)) then
      if m s = 0x22 then scanWord (Function.update m s 0x20) bound (s + 1) !flag
      else scanWord m bound (s + 1) flag
    else some (m, s)

/-- What `gettoken` returns, and the memory, `*p1` and `*p2` after it. -/
structure Token where
  token : UInt8
  m : Mem
  p1 : Option ℕ
  p2 : ℕ

/-- `gettoken`; the token is 0, the character `'w'`, or the symbol. -/
def gettoken (bound : ℕ) (m : Mem) (p1 : Option ℕ) (p2 : ℕ) : Option Token :=
  match p1 with
  | none => some ⟨0, m, none, p2⟩
  | some s => do
    let (m, s) ← skipWhite m bound s
    if m s = 0 then some ⟨0, m, p1, p2⟩
    else if SYMBOLS.contains (m s) then
      let token := m s
      let m := Function.update m s 0
      some ⟨token, m, if m (s + 1) ≠ 0 then some (s + 1) else none, s⟩
    else do
      let (m, t) ← scanWord m bound s false
      some ⟨0x77, m, if m t ≠ 0 then some t else none, s⟩

/-! ### System calls -/

inductive Event
  | print (text : String)
  | close (fd : ℤ)
  | open (name : List UInt8) (flags : ℕ)
  | dup2 (fd₁ fd₂ : ℤ)
  | fork
  | waitpid (pid : ℤ)
  /-- `strcpy(shcwd, cwd)` -/
  | chdir (cwd : List UInt8)
  | exec (argv : List (List UInt8))
  deriving DecidableEq, Repr

/-- The return value of the last event of a history. -/
abbrev Env := List Event → ℤ

/-- The events so far, and the return value of the function. -/
abbrev Result := List Event × ℤ

/-- `reopen`. -/
def reopen (env : Env) (h : List Event) (fd₂ : ℤ) (filename : List UInt8) (flags : ℕ) : Result :=
  let h := h ++ [.close fd₂, .open filename flags]
  let ret := env h
  if ret ≥ 0 ∧ ret ≠ fd₂ then
    let fd₁ := ret
    let h := h ++ [.close fd₂, .dup2 fd₁ fd₂]
    let ret := env h
    (h ++ [.close fd₁], if ret < 0 then ret else 0)
  else (h, if ret < 0 then ret else 0)

/-- `testfile`. -/
def testfile (env : Env) (h : List Event) (name : List UInt8) : Result :=
  let h := h ++ [.open name O_RDONLY]
  let ret := env h
  if ret < 0 then (h, ret) else (h ++ [.close ret], 0)

/-! ### `runcmd` -/

/-- The part of `runcmd` behind `runit`, for the argument strings `argv`. -/
def runit (env : Env) (h : List Event) : List (List UInt8) → Result
  | [] => (h, 0)
  | name :: args =>
    if name = [0x63, 0x64] then
      match args with
      | [dir] => (h ++ [.chdir dir], 0)
      | _ => (h, -1)
    else
      let (h, ret) := testfile env h name
      if ret ≠ 0 ∧ ret ≠ -E_NOENT then (h, ret)
      else
        -- `snprintf(argv0, sizeof(argv0), "/%s", argv[0])`
        let first := if ret ≠ 0 then (0x2f :: name).take (BUFSIZE - 1) else name
        let h := h ++ [.exec (first :: args)]
        (h, env h)

/-- The strings that the arguments point to. -/
def argStrings (m : Mem) (bound : ℕ) (argv : List ℕ) : Option (List (List UInt8)) :=
  argv.mapM (stringAt m bound)

/-- `close(p[0]), close(p[1])`. -/
def closeBoth (h : List Event) (p : ℤ × ℤ) : List Event := h ++ [.close p.1, .close p.2]

/-- The loop of `runcmd`, with at most `turns` turns.  `p` is the array that `pipe` would fill, were it called. -/
def runcmdLoop (env : Env) (p : ℤ × ℤ) (bound : ℕ) :
    ℕ → Mem → Option ℕ → ℕ → List ℕ → List Event → Option Result
  | 0, _, _, _, _, _ => none
  | turns + 1, m, cmd, t, argv, h => do
    let ⟨token, m, cmd, t⟩ ← gettoken bound m cmd t
    let run := fun h => (argStrings m bound argv).map (runit env h)
    if token = 0x77 then
      if argv.length = EXEC_MAX_ARG_NUM then
        some (h ++ [.print "sh error: too many arguments\n"], -1)
      else runcmdLoop env p bound turns m cmd t (argv ++ [t]) h
    else if token = 0x3c then do
      let ⟨token, m, cmd, t⟩ ← gettoken bound m cmd t
      if token ≠ 0x77 then some (h ++ [.print "sh error: syntax error: < not followed by word\n"], -1)
      else do
        let filename ← stringAt m bound t
        let (h, ret) := reopen env h 0 filename O_RDONLY
        if ret ≠ 0 then some (h, ret) else runcmdLoop env p bound turns m cmd t argv h
    else if token = 0x3e then do
      let ⟨token, m, cmd, t⟩ ← gettoken bound m cmd t
      if token ≠ 0x77 then some (h ++ [.print "sh error: syntax error: > not followed by word\n"], -1)
      else do
        let filename ← stringAt m bound t
        let (h, ret) := reopen env h 1 filename (O_RDWR + O_TRUNC + O_CREAT)
        if ret ≠ 0 then some (h, ret) else runcmdLoop env p bound turns m cmd t argv h
    else if token = 0x7c then
      let h := h ++ [.fork]
      let ret := env h
      if ret = 0 then
        let h := h ++ [.close 0, .dup2 p.1 0]
        let ret := env h
        if ret < 0 then some (h, ret)
        else runcmdLoop env p bound turns m cmd t [] (closeBoth h p)
      else if ret < 0 then some (h, ret)
      else
        let h := h ++ [.close 1, .dup2 p.2 1]
        let ret := env h
        if ret < 0 then some (h, ret) else run (closeBoth h p)
    else if token = 0 then run h
    else if token = 0x3b then
      let h := h ++ [.fork]
      let ret := env h
      if ret = 0 then run h
      else if ret < 0 then some (h, ret)
      else runcmdLoop env p bound turns m cmd t [] (h ++ [.waitpid ret])
    else some (h ++ [.print ("sh error: bad return " ++ toString token.toNat ++ " from gettoken\n")], -1)

/-- `runcmd` of the string at `cmd`. -/
def runcmd (env : Env) (p : ℤ × ℤ) (turns bound : ℕ) (m : Mem) (cmd : ℕ) : Option Result :=
  runcmdLoop env p bound turns m (some cmd) 0 [] []

end Ucore.Shell
