import Mathlib.Logic.Function.Basic
import Xv6.Lib.Scan

/-!
# Sh — the parser of the shell (`sh.c`)

The command string is in the memory `m`, and pointers into it are addresses.  A loop or a recursion makes
at most `fuel` rounds.  A `struct cmd` is a tree, since no node is in two places; `cmd->argv[i] = …` in
`parseexec` changes the `execcmd` inside the redirections that have been put around it.
-/

namespace Xv6.Sh

abbrev MAXARGS : ℕ := 10

abbrev O_RDONLY : ℕ := 0x000
abbrev O_WRONLY : ℕ := 0x001
abbrev O_CREATE : ℕ := 0x200
abbrev O_TRUNC : ℕ := 0x400

/-- `'&'`, `'('`, `')'`, `'+'`, `';'`, `'<'`, `'>'`, `'a'` and `'|'`. -/
abbrev AMP : UInt8 := 38
abbrev LPAR : UInt8 := 40
abbrev RPAR : UInt8 := 41
abbrev PLUS : UInt8 := 43
abbrev SEMI : UInt8 := 59
abbrev LT : UInt8 := 60
abbrev GT : UInt8 := 62
abbrev WORD : UInt8 := 97
abbrev BAR : UInt8 := 124

/-- Blank, tab, carriage return, newline and vertical tab. -/
def whitespace : List UInt8 := [32, 9, 13, 10, 11]

def symbols : List UInt8 := [LT, BAR, GT, AMP, SEMI, LPAR, RPAR]

/-- `c` is in the string `s`; its terminator is not. -/
def strchr (s : List UInt8) (c : UInt8) : Bool := s.contains c

/-- How a run ends that does not return: with `panic`, with an access outside `argv`, or without fuel. -/
inductive Stop where
  | panic (s : String)
  | bounds
  | fuel
  deriving DecidableEq

/-- A `struct cmd`; a null pointer is `none`. -/
inductive cmd where
  | execcmd (argv eargv : Fin MAXARGS → Option ℕ)
  | redircmd (cmd : cmd) (file efile mode fd : ℕ)
  | pipecmd (left right : cmd)
  | listcmd (left right : cmd)
  | backcmd (cmd : cmd)

/-- What `gettoken` returns, with the start and the end of the token. -/
structure Token where
  ret : UInt8
  q : ℕ
  eq : ℕ

section

variable (m : ByteStore) (es : ℕ)

/-- `while(s < es && strchr(whitespace, *s)) s++`. -/
def skipWhite (s : ℕ) : ℕ := m.skip (strchr whitespace) (es - s) s

def gettoken (ps : ℕ) : Token × ℕ :=
  let q := skipWhite m es ps
  let (ret, eq) :=
    if m q = 0 then (0, q)
    else if m q = BAR ∨ m q = LPAR ∨ m q = RPAR ∨ m q = SEMI ∨ m q = AMP ∨ m q = LT then (m q, q + 1)
    else if m q = GT then if m (q + 1) = GT then (PLUS, q + 2) else (GT, q + 1)
    else (WORD, m.skip (fun c => !strchr whitespace c && !strchr symbols c) (es - q) q)
  (⟨ret, q, eq⟩, skipWhite m es eq)

def peek (ps : ℕ) (toks : List UInt8) : Bool × ℕ :=
  let s := skipWhite m es ps
  (m s ≠ 0 && strchr toks (m s), s)

/-- `cmd->argv[i] = q; cmd->eargv[i] = eq` for the `execcmd` in `ret`. -/
def setArg (i : ℕ) (q eq : Option ℕ) : cmd → Except Stop cmd
  | .execcmd argv eargv =>
    if h : i < MAXARGS then
      .ok (.execcmd (Function.update argv ⟨i, h⟩ q) (Function.update eargv ⟨i, h⟩ eq))
    else .error .bounds
  | .redircmd cmd file efile mode fd => (setArg i q eq cmd).map fun cmd => .redircmd cmd file efile mode fd
  | cmd => .ok cmd

def parseredirs : ℕ → cmd → ℕ → Except Stop (cmd × ℕ)
  | 0, _, _ => .error .fuel
  | fuel + 1, cmd, ps =>
    let (more, ps) := peek m es ps [LT, GT]
    if more then
      let (tok, ps) := gettoken m es ps
      let (file, ps) := gettoken m es ps
      if file.ret ≠ WORD then .error (.panic "missing file for redirection")
      else if tok.ret = LT then parseredirs fuel (.redircmd cmd file.q file.eq O_RDONLY 0) ps
      else if tok.ret = GT then
        parseredirs fuel (.redircmd cmd file.q file.eq (O_WRONLY ||| O_CREATE ||| O_TRUNC) 1) ps
      else if tok.ret = PLUS then parseredirs fuel (.redircmd cmd file.q file.eq (O_WRONLY ||| O_CREATE) 1) ps
      else parseredirs fuel cmd ps
    else .ok (cmd, ps)

/-- The loop of `parseexec`. -/
def argLoop : ℕ → ℕ → cmd → ℕ → Except Stop (ℕ × cmd × ℕ)
  | 0, _, _, _ => .error .fuel
  | fuel + 1, argc, ret, ps =>
    let (last, ps) := peek m es ps [BAR, RPAR, AMP, SEMI]
    if last then .ok (argc, ret, ps)
    else
      let (tok, ps) := gettoken m es ps
      if tok.ret = 0 then .ok (argc, ret, ps)
      else if tok.ret ≠ WORD then .error (.panic "syntax")
      else do
        let ret ← setArg argc (some tok.q) (some tok.eq) ret
        let argc := argc + 1
        if MAXARGS ≤ argc then .error (.panic "too many args")
        else
          let (ret, ps) ← parseredirs m es fuel ret ps
          argLoop fuel argc ret ps

/-- The first loop of `parseline`. -/
def backLoop : ℕ → cmd → ℕ → Except Stop (cmd × ℕ)
  | 0, _, _ => .error .fuel
  | fuel + 1, cmd, ps =>
    let (more, ps) := peek m es ps [AMP]
    if more then
      let (_, ps) := gettoken m es ps
      backLoop fuel (.backcmd cmd) ps
    else .ok (cmd, ps)

mutual

def parseline : ℕ → ℕ → Except Stop (cmd × ℕ)
  | 0, _ => .error .fuel
  | fuel + 1, ps => do
    let (cmd, ps) ← parsepipe fuel ps
    let (cmd, ps) ← backLoop m es fuel cmd ps
    let (more, ps) := peek m es ps [SEMI]
    if more then
      let (_, ps) := gettoken m es ps
      let (right, ps) ← parseline fuel ps
      .ok (.listcmd cmd right, ps)
    else .ok (cmd, ps)

def parsepipe : ℕ → ℕ → Except Stop (cmd × ℕ)
  | 0, _ => .error .fuel
  | fuel + 1, ps => do
    let (cmd, ps) ← parseexec fuel ps
    let (more, ps) := peek m es ps [BAR]
    if more then
      let (_, ps) := gettoken m es ps
      let (right, ps) ← parsepipe fuel ps
      .ok (.pipecmd cmd right, ps)
    else .ok (cmd, ps)

def parseexec : ℕ → ℕ → Except Stop (cmd × ℕ)
  | 0, _ => .error .fuel
  | fuel + 1, ps =>
    let (block, ps) := peek m es ps [LPAR]
    if block then parseblock fuel ps
    else do
      let (ret, ps) ← parseredirs m es fuel (.execcmd (fun _ => none) (fun _ => none)) ps
      let (argc, ret, ps) ← argLoop m es fuel 0 ret ps
      let ret ← setArg argc none none ret
      .ok (ret, ps)

def parseblock : ℕ → ℕ → Except Stop (cmd × ℕ)
  | 0, _ => .error .fuel
  | fuel + 1, ps =>
    let (first, ps) := peek m es ps [LPAR]
    if !first then .error (.panic "parseblock")
    else do
      let (_, ps) := gettoken m es ps
      let (cmd, ps) ← parseline fuel ps
      let (last, ps) := peek m es ps [RPAR]
      if !last then .error (.panic "syntax - missing )")
      else
        let (_, ps) := gettoken m es ps
        parseredirs m es fuel cmd ps

end

end

/-- `for(i=0; argv[i]; i++) *eargv[i] = 0`, with `n` rounds left. -/
def endArgs (argv eargv : Fin MAXARGS → Option ℕ) : ℕ → ℕ → ByteStore → Except Stop ByteStore
  | 0, _, _ => .error .fuel
  | fuel + 1, i, m =>
    if h : i < MAXARGS then
      match argv ⟨i, h⟩, eargv ⟨i, h⟩ with
      | none, _ => .ok m
      | some _, some eq => endArgs argv eargv fuel (i + 1) (Function.update m eq 0)
      | some _, none => .error .bounds
    else .error .bounds

def nulterminate : cmd → ByteStore → Except Stop ByteStore
  | .execcmd argv eargv, m => endArgs argv eargv (MAXARGS + 1) 0 m
  | .redircmd cmd _ efile _ _, m => do
    let m ← nulterminate cmd m
    .ok (Function.update m efile 0)
  | .pipecmd left right, m => do
    let m ← nulterminate left m
    nulterminate right m
  | .listcmd left right, m => do
    let m ← nulterminate left m
    nulterminate right m
  | .backcmd cmd, m => nulterminate cmd m

/-- `es = s + strlen(s)`. -/
def strend (m : ByteStore) (fuel s : ℕ) : ℕ := m.skip (fun c => c ≠ 0) fuel s

def parsecmd (fuel : ℕ) (m : ByteStore) (s : ℕ) : Except Stop (cmd × ByteStore) := do
  let es := strend m fuel s
  let (cmd, s) ← parseline m es fuel s
  let (_, s) := peek m es s []
  if s ≠ es then .error (.panic "syntax")
  else
    let m ← nulterminate cmd m
    .ok (cmd, m)

end Xv6.Sh
