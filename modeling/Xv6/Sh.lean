import Xv6.Param

/-!
# The shell's parser

The functions of `sh.c` from `gettoken` to `nulterminate`. A line is a list of bytes; a read past its
end gives NUL. `*ps` is the state of a `Parser`, and a word is given by its first byte and the byte after
its last one. `fuel` bounds how deep the calls are nested.
-/

namespace Xv6.Sh

abbrev MAXARGS : Nat := 10

abbrev O_RDONLY : Nat := 0

/-- A command with words of type `W`. -/
inductive Cmd (W : Type)
  | exec (argv : List W)
  | redir (cmd : Cmd W) (file : W) (mode fd : Nat)
  | pipe (left right : Cmd W)
  | list (left right : Cmd W)
  | back (cmd : Cmd W)
  deriving DecidableEq, Repr

/-- The pointers `q` and `eq` of a word. -/
abbrev Span := Nat × Nat

/-- Why the shell does not return from the parser. -/
inductive Stop
  | panic (msg : String)
  /-- It prints what is left from `s` on, and panics with "syntax". -/
  | leftovers (s : Nat)
  | outOfFuel
  deriving DecidableEq, Repr

abbrev Parser := StateT Nat (Except Stop)

def whitespace : List UInt8 := [32, 9, 13, 10, 11]

def symbols : List UInt8 := [ch '<', ch '|', ch '>', ch '&', ch ';', ch '(', ch ')']

def isSpace (c : UInt8) : Bool := whitespace.contains c

/-- A byte that `gettoken` takes for a part of a word. -/
def isWord (c : UInt8) : Bool := !whitespace.contains c && !symbols.contains c

/-- The byte that a pointer to position `s` of the line points to. -/
def deref (b : List UInt8) (s : Nat) : UInt8 := b.getD s 0

/-- The first position from `s` on, up to `es`, that does not satisfy `p`. -/
def scan (p : UInt8 → Bool) (b : List UInt8) (es s : Nat) : Nat :=
  if s < es ∧ p (deref b s) then scan p b es (s + 1) else s
termination_by es - s

def skip (b : List UInt8) (es s : Nat) : Nat := scan isSpace b es s

/-- The `switch` of `gettoken` at `q`: what it returns, and the end of the token. -/
def token (b : List UInt8) (es q : Nat) : UInt8 × Nat :=
  let c := deref b q
  if c = 0 then (0, q)
  else if c ∈ [ch '|', ch '(', ch ')', ch ';', ch '&', ch '<'] then (c, q + 1)
  else if c = ch '>' then
    if deref b (q + 1) = ch '>' then (ch '+', q + 2) else (c, q + 1)
  else (ch 'a', scan isWord b es q)

def gettoken (b : List UInt8) (es : Nat) : Parser (UInt8 × Span) := fun s =>
  let q := skip b es s
  let r := token b es q
  .ok ((r.1, q, r.2), skip b es r.2)

def peek (b : List UInt8) (es : Nat) (toks : List UInt8) : Parser Bool := fun s =>
  let s := skip b es s
  .ok (deref b s ≠ 0 && toks.contains (deref b s), s)

def redircmd (cmd : Cmd Span) (tok : UInt8) (file : Span) : Cmd Span :=
  if tok = ch '<' then .redir cmd file O_RDONLY 0
  else if tok = ch '>' then .redir cmd file (O_WRONLY ||| O_CREATE) 1
  else if tok = ch '+' then .redir cmd file (O_WRONLY ||| O_CREATE) 1
  else cmd

def parseredirs (b : List UInt8) (es : Nat) : Nat → Cmd Span → Parser (Cmd Span)
  | 0, _ => throw .outOfFuel
  | fuel + 1, cmd => do
    if ← peek b es [ch '<', ch '>'] then do
      let tok ← gettoken b es
      let file ← gettoken b es
      if file.1 ≠ ch 'a' then throw (.panic "missing file for redirection")
      else parseredirs b es fuel (redircmd cmd tok.1 file.2)
    else pure cmd

/-- `cmd->argv[argc] = q`, where `cmd` is the command that the redirections of `ret` are for. -/
def Cmd.addArg {W : Type} : Cmd W → W → Cmd W
  | .exec argv, w => .exec (argv ++ [w])
  | .redir cmd file mode fd, w => .redir (cmd.addArg w) file mode fd
  | cmd, _ => cmd

/-- The loop of `parseexec`. -/
def parseargs (b : List UInt8) (es : Nat) : Nat → Cmd Span → Nat → Parser (Cmd Span)
  | 0, _, _ => throw .outOfFuel
  | fuel + 1, ret, argc => do
    if ← peek b es [ch '|', ch ')', ch '&', ch ';'] then pure ret
    else do
      let tok ← gettoken b es
      if tok.1 = 0 then pure ret
      else if tok.1 ≠ ch 'a' then throw (.panic "syntax")
      else if argc + 1 ≥ MAXARGS then throw (.panic "too many args")
      else do
        let ret ← parseredirs b es fuel (ret.addArg tok.2)
        parseargs b es fuel ret (argc + 1)

/-- The loop of `parseline`. -/
def parseback (b : List UInt8) (es : Nat) : Nat → Cmd Span → Parser (Cmd Span)
  | 0, _ => throw .outOfFuel
  | fuel + 1, cmd => do
    if ← peek b es [ch '&'] then do
      let _ ← gettoken b es
      parseback b es fuel (.back cmd)
    else pure cmd

mutual

def parseline (b : List UInt8) (es : Nat) : Nat → Parser (Cmd Span)
  | 0 => throw .outOfFuel
  | fuel + 1 => do
    let cmd ← parsepipe b es fuel
    let cmd ← parseback b es fuel cmd
    if ← peek b es [ch ';'] then do
      let _ ← gettoken b es
      let rest ← parseline b es fuel
      pure (.list cmd rest)
    else pure cmd

def parsepipe (b : List UInt8) (es : Nat) : Nat → Parser (Cmd Span)
  | 0 => throw .outOfFuel
  | fuel + 1 => do
    let cmd ← parseexec b es fuel
    if ← peek b es [ch '|'] then do
      let _ ← gettoken b es
      let rest ← parsepipe b es fuel
      pure (.pipe cmd rest)
    else pure cmd

def parseexec (b : List UInt8) (es : Nat) : Nat → Parser (Cmd Span)
  | 0 => throw .outOfFuel
  | fuel + 1 => do
    if ← peek b es [ch '('] then parseblock b es fuel
    else do
      let ret ← parseredirs b es fuel (.exec [])
      parseargs b es fuel ret 0

def parseblock (b : List UInt8) (es : Nat) : Nat → Parser (Cmd Span)
  | 0 => throw .outOfFuel
  | fuel + 1 => do
    if ← peek b es [ch '('] then do
      let _ ← gettoken b es
      let cmd ← parseline b es fuel
      if ← peek b es [ch ')'] then do
        let _ ← gettoken b es
        parseredirs b es fuel cmd
      else throw (.panic "syntax - missing )")
    else throw (.panic "parseblock")

end

/-- NUL-terminate all the counted strings. -/
def nulterminate : Cmd Span → List UInt8 → List UInt8
  | .exec argv, b => argv.foldl (fun b w => b.set w.2 0) b
  | .redir cmd file _ _, b => (nulterminate cmd b).set file.2 0
  | .pipe left right, b => nulterminate right (nulterminate left b)
  | .list left right, b => nulterminate right (nulterminate left b)
  | .back cmd, b => nulterminate cmd b

/-- The bytes of the string that starts at `s`. -/
def cstr (b : List UInt8) (s : Nat) : List UInt8 := (b.drop s).takeWhile (fun c => c ≠ 0)

def strlen (b : List UInt8) : Nat := (cstr b 0).length

/-- The command, and the line with its words terminated. -/
def parsecmd (b : List UInt8) : Except Stop (Cmd Span × List UInt8) := do
  let es := strlen b
  let r ← parseline b es (4 * es + 4) 0
  let s := skip b es r.2
  if s ≠ es then throw (.leftovers s)
  else pure (r.1, nulterminate r.1 b)

end Xv6.Sh
