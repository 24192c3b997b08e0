import Libfsm.Fsm.Basic
import Libfsm.Lib.Numerals

/-!
# Writing The .fsm Format

`fsm_print_fsm` of `print/fsm.c` with default options: states are declared in order, edges are
not grouped.  The output is taken as tokens.  A token keeps the text it was made of, since the
parser computes from that text; white space and comments make no tokens.

- `Token`: the terminals of the grammar
- `fsmEscputc`, `lexLabel`: the text of a label, and the token the lexer makes of it
- `findany`: the test for the `?` shorthand
- `fsmPrintFsm`: the output
-/

namespace Libfsm

open Lib

/-! ## §1 Tokens -/

/-- The terminals of `parser.sid`.  The text of a token is what the lexer leaves in its buffer. -/
inductive Token where
  | ident (text : List Char)
  | endid (text : List Char)
  | esc (text : List Char)
  | oct (text : List Char)
  | hex (text : List Char)
  | char (text : List Char)
  | label
  | start
  | ends
  | openendids
  | closeendids
  | equals
  | to
  | any
  | sep
  | comma
  | eof
  | unknown
  deriving DecidableEq, Repr

/-- `%u` -/
def decimal (n : ℕ) : List Char := Nat.toDigits 10 n

/-! ## §2 Labels -/

/-- The character that starts an escape. -/
def backslash : Char := Char.ofNat 92

/-- `isprint`, in the C locale. -/
def isprint (c : Byte) : Bool := decide (0x20 ≤ c.val ∧ c.val ≤ 0x7e)

/-- The escapes of `fsm_escputc` and of the lexer that are one letter after a backslash. -/
def escapeLetter (c : Byte) : Option Char :=
  match c.val with
  | 92 => some backslash
  | 34 => some (Char.ofNat 34)
  | 12 => some 'f'
  | 10 => some 'n'
  | 13 => some 'r'
  | 9 => some 't'
  | 11 => some 'v'
  | _ => none

/-- `fsm_escputc` without `always_hex` -/
def fsmEscputc (c : Byte) : List Char :=
  match escapeLetter c with
  | some letter => [backslash, letter]
  | none =>
    if isprint c then [Char.ofNat c.val]
    else [backslash, 'x', Nat.digitChar (c.val / 16), Nat.digitChar (c.val % 16)]

/-- The digits of a base. -/
def isDigitOf (base : ℕ) (c : Char) : Bool := (digitValue c).any (· < base)

/-- The rules of `lexer.lx` for what stands between two double quotes, as far as they read all
of it as one token. -/
def lexLabel (text : List Char) : Token :=
  match text with
  | [c] => if c = backslash then .unknown else .char text
  | c₀ :: c :: rest =>
    if c₀ ≠ backslash then .unknown
    else if rest = [] ∧ c ∈ [backslash, Char.ofNat 34, 'f', 'n', 'r', 't', 'v'] then .esc text
    else if (c :: rest).all (isDigitOf 8) then .oct text
    else if c = 'x' ∧ rest ≠ [] ∧ rest.all (isDigitOf 16) then .hex text
    else .unknown
  | [] => .unknown

/-! ## §3 States -/

/-- The second loop of `findany`: all edges lead to `target`, on different symbols. -/
def findanyLoop (target : BitVec 24) : List FsmEdge → List Byte → Option (List Byte)
  | [], seen => some seen
  | e :: es, seen =>
    if target ≠ e.state then none
    -- the symbols met are kept as the bitmap does
    else if e.symbol ∈ seen then none
    else findanyLoop target es (e.symbol :: seen)

def findany (f : Fsm) (s : ℕ) : Option ℕ :=
  match edgeSetEdges (f.state s).edges with
  | [] => none
  | e :: es =>
    if e.symbol ≠ 0 then none
    else
      match findanyLoop e.state (e :: es) [] with
      | none => none
      | some seen => if seen.length ≠ 256 then none else some e.state.toNat

/-- A state declaration. -/
def declLine (s : ℕ) : List Token := [.ident (decimal s), .sep]

/-- An epsilon edge. -/
def epsilonLine (s t : ℕ) : List Token :=
  [.ident (decimal s), .to, .ident (decimal t), .sep]

/-- An edge on any symbol. -/
def anyLine (s t : ℕ) : List Token :=
  [.ident (decimal s), .to, .ident (decimal t), .any, .sep]

/-- An edge on one symbol.  The second quote is the token `LABEL`. -/
def labelLine (s t : ℕ) (c : Byte) : List Token :=
  [.ident (decimal s), .to, .ident (decimal t), lexLabel (fsmEscputc c), .label, .sep]

def printState (f : Fsm) (s : ℕ) : List Token :=
  (f.state s).epsilons.toList.flatMap (epsilonLine s) ++
    match findany f s with
    | some a => anyLine s a
    | none => (edgeSetOrderedEdges (f.state s).edges).flatMap fun e =>
        labelLine s e.state.toNat e.symbol

/-! ## §4 The Output -/

/-- The loop of `default_accept` over the end IDs of a state. -/
def printIds : List ℕ → List Token
  | [] => []
  | [id] => [.endid (decimal id)]
  | id :: ids => .endid (decimal id) :: .comma :: printIds ids

def defaultAccept (ids : List ℕ) : List Token :=
  if ids.length = 0 then []
  else [.equals, .openendids] ++ printIds ids ++ [.closeendids]

/-- The loop over the end states, with the number of end states that are left. -/
def printEnds (f : Fsm) : List ℕ → ℕ → List Token
  | [], _ => []
  | s :: ss, left =>
    if fsmIsend f s = false then printEnds f ss left
    else
      .ident (decimal s) :: defaultAccept (f.endidInfo.get s) ++
        (if 0 < left - 1 then [.comma] else [.sep]) ++ printEnds f ss (left - 1)

/-- `fsm_print_fsm` with default options and no hooks -/
def fsmPrintFsm (f : Fsm) : List Token :=
  (List.range f.statecount).flatMap declLine ++
    (List.range f.statecount).flatMap (printState f) ++
    (match fsmGetstart f with
      | none => []
      | some start =>
        [.start, .ident (decimal start), .sep] ++
          if f.endcount = 0 then []
          else .ends :: printEnds f (List.range f.statecount) f.endcount) ++
    [.eof]

end Libfsm
