import Xv6.Lib.Exec

namespace Xv6.Shell

open Lib

abbrev Byte := { c : UInt8 // c ≠ 0 }

abbrev Ptr := List Byte

def deref : Ptr → UInt8
  | [] => 0
  | c :: _ => c

def maxargs : Nat := 10

def oRdonly : Nat := 0x000

def oWronly : Nat := 0x001

def oCreate : Nat := 0x200

def whitespace : List UInt8 := [32, 9, 13, 10, 11]

def symbols : List UInt8 := [60, 124, 62, 38, 59, 40, 41]

structure Span where
  q : Ptr
  eq : Ptr
  deriving DecidableEq

inductive Cmd
  | exec (argv : List Span)
  | redir (cmd : Cmd) (file : Span) (mode fd : Nat)
  | pipe (left right : Cmd)
  | list (left right : Cmd)
  | back (cmd : Cmd)
  deriving DecidableEq

inductive Err
  /-- `parseblock` -/
  | parseblock
  /-- `syntax - missing )` -/
  | missingParen
  /-- `missing file for redirection` -/
  | missingFile
  /-- `syntax`, in `parseexec` -/
  | notWord
  /-- `too many args` -/
  | tooManyArgs
  /-- `syntax`, in `parsecmd` after `leftovers` -/
  | leftovers
  /-- The recursion was cut off. The shell has no such error. -/
  | outOfFuel
  deriving DecidableEq

abbrev ParseM := Exec Ptr Err

def isSpace (c : Byte) : Bool := whitespace.contains c.val

def isWord (c : Byte) : Bool := !whitespace.contains c.val && !symbols.contains c.val

/-- The loop over the whitespace at the start and at the end of `gettoken`, and in `peek`. -/
def skip (s : Ptr) : Ptr := s.dropWhile isSpace

def scan (s : Ptr) : UInt8 × Ptr :=
  match deref s with
  | 0 => (0, s)
  | 124 => (124, s.tail)
  | 40 => (40, s.tail)
  | 41 => (41, s.tail)
  | 59 => (59, s.tail)
  | 38 => (38, s.tail)
  | 60 => (60, s.tail)
  | 62 => if deref s.tail = 62 then (43, s.tail.tail) else (62, s.tail)
  | _ => (97, s.dropWhile isWord)

def gettoken : ParseM (UInt8 × Span) := fun s =>
  let s := skip s
  let r := scan s
  .ok ((r.1, ⟨s, r.2⟩), skip r.2)

def peek (toks : List UInt8) : ParseM Bool := fun s => .ok (toks.contains (deref (skip s)), skip s)

def parseredirs : (fuel : Nat) → Cmd → ParseM Cmd
  | 0, _ => Exec.fail .outOfFuel
  | fuel + 1, cmd => do
      if ← peek [60, 62] then do
        let (tok, _) ← gettoken
        let (word, file) ← gettoken
        if word ≠ 97 then Exec.fail .missingFile
        else if tok = 60 then parseredirs fuel (.redir cmd file oRdonly 0)
        else if tok = 62 then parseredirs fuel (.redir cmd file (oWronly ||| oCreate) 1)
        else if tok = 43 then parseredirs fuel (.redir cmd file (oWronly ||| oCreate) 1)
        else parseredirs fuel cmd
      else pure cmd

/-- Sets `argv[argc]` in the node of `execcmd`, to which `ret` leads through redirections. -/
def Cmd.push (w : Span) : Cmd → Cmd
  | .exec argv => .exec (argv ++ [w])
  | .redir cmd file mode fd => .redir (cmd.push w) file mode fd
  | cmd => cmd

/-- The loop of `parseexec`. -/
def parseargs : (fuel argc : Nat) → Cmd → ParseM Cmd
  | 0, _, _ => Exec.fail .outOfFuel
  | fuel + 1, argc, ret => do
      if ← peek [124, 41, 38, 59] then pure ret
      else do
        let (tok, arg) ← gettoken
        if tok = 0 then pure ret
        else if tok ≠ 97 then Exec.fail .notWord
        else if argc + 1 ≥ maxargs then Exec.fail .tooManyArgs
        else do
          let ret ← parseredirs fuel (ret.push arg)
          parseargs fuel (argc + 1) ret

/-- The loop of `parseline`. -/
def parseback : (fuel : Nat) → Cmd → ParseM Cmd
  | 0, _ => Exec.fail .outOfFuel
  | fuel + 1, cmd => do
      if ← peek [38] then do
        let _ ← gettoken
        parseback fuel (.back cmd)
      else pure cmd

mutual

def parseline : Nat → ParseM Cmd
  | 0 => Exec.fail .outOfFuel
  | fuel + 1 => do
      let cmd ← parsepipe fuel
      let cmd ← parseback fuel cmd
      if ← peek [59] then do
        let _ ← gettoken
        let right ← parseline fuel
        pure (.list cmd right)
      else pure cmd

def parsepipe : Nat → ParseM Cmd
  | 0 => Exec.fail .outOfFuel
  | fuel + 1 => do
      let cmd ← parseexec fuel
      if ← peek [124] then do
        let _ ← gettoken
        let right ← parsepipe fuel
        pure (.pipe cmd right)
      else pure cmd

def parseexec : Nat → ParseM Cmd
  | 0 => Exec.fail .outOfFuel
  | fuel + 1 => do
      if ← peek [40] then parseblock fuel
      else do
        let ret ← parseredirs fuel (.exec [])
        parseargs fuel 0 ret

def parseblock : Nat → ParseM Cmd
  | 0 => Exec.fail .outOfFuel
  | fuel + 1 => do
      if ← peek [40] then do
        let _ ← gettoken
        let cmd ← parseline fuel
        if ← peek [41] then do
          let _ ← gettoken
          parseredirs fuel cmd
        else Exec.fail .missingParen
      else Exec.fail .parseblock

end

def nulterminate : Cmd → List Ptr
  | .exec argv => argv.map Span.eq
  | .redir cmd file _ _ => nulterminate cmd ++ [file.eq]
  | .pipe left right => nulterminate left ++ nulterminate right
  | .list left right => nulterminate left ++ nulterminate right
  | .back cmd => nulterminate cmd

/-- `parsecmd` on the line at `s`: the command, and the bytes of the line that are set to 0. Every round of the
recursion reads a byte. -/
def parsecmd (s : Ptr) : Except Err (Cmd × List Ptr) :=
  match parseline (4 * s.length + 5) s with
  | .ok (cmd, s) => if skip s = [] then .ok (cmd, nulterminate cmd) else .error .leftovers
  | .error e => .error e

def cstring (nuls : List Ptr) : Ptr → Ptr
  | [] => []
  | c :: s => if c :: s ∈ nuls then [] else c :: cstring nuls s

end Xv6.Shell
