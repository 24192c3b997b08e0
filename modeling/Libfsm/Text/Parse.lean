import Libfsm.Lib.ChainTable
import Libfsm.Text.Print

/-!
# Reading The .fsm Format

`fsm_parse`: the grammar of `parser.sid` with the terminals and actions of `parser.act`, on a
list of tokens.  Where the parser exits with an error, there is no result.

- `escValue`, `octValue`, `hexValue`, `charValue`, `endidValue`: the terminals
- `addState`: the action that makes states of names, with its hash table
- `parseItems`, `parseXstart`, `parseXend`, `fsmParse`: the productions
-/

namespace Libfsm

open Lib

/-! ## §1 Terminals -/

/-- The byte of a `char`. -/
def byteOfChar (c : Char) : Byte := Fin.ofNat 256 c.toNat

/-- `ESC` -/
def escValue (text : List Char) : Option Byte :=
  match text with
  | [c₀, c] =>
    if c₀ ≠ backslash then none
    else some <|
      match c with
      | 'f' => 12
      | 'n' => 10
      | 'r' => 13
      | 't' => 9
      | 'v' => 11
      | _ => byteOfChar c
  | _ => none

/-- A value that fits `unsigned char`. -/
def byteOfNat (u : ℕ) : Option Byte := if h : u < 256 then some ⟨u, h⟩ else none

/-- `OCT` -/
def octValue (text : List Char) : Option Byte :=
  match text with
  | c₀ :: c :: digits =>
    if c₀ ≠ backslash then none else (readNumeral 8 (c :: digits)).bind byteOfNat
  | _ => none

/-- `HEX` -/
def hexValue (text : List Char) : Option Byte :=
  match text with
  | c₀ :: 'x' :: c :: digits =>
    if c₀ ≠ backslash then none else (readNumeral 16 (c :: digits)).bind byteOfNat
  | _ => none

/-- `CHAR` -/
def charValue (text : List Char) : Option Byte :=
  match text with
  | [c] => some (byteOfChar c)
  | _ => none

def fsmEndIdMax : ℕ := 2 ^ 32 - 1

/-- `ENDID`.  The text is read in base 16. -/
def endidValue (text : List Char) : Option ℕ :=
  (readNumeral 16 text).bind fun u => if fsmEndIdMax < u then none else some u

/-! ## §2 States By Name -/

def defBuckets : ℕ := 64

def maxChainLength : ℕ := 16

/-- `struct act_stateset`: a hash table with chaining, from names to states. -/
structure ActStateset where
  longestChainLength : ℕ
  buckets : List (List (List Char × ℕ))

/-- `struct act_state` and the FSM that is being built. -/
structure ActState where
  states : ActStateset
  fsm : Fsm

/-- `hash_of_id`: FNV1a. -/
def hashOfId (id : List Char) : UInt32 :=
  id.foldl (fun h c => (h ^^^ UInt32.ofNat c.toNat) * 16777619) 2166136261

/-- The bucket of a name among `count` buckets, `hash & mask`. -/
def nameSlot (count : ℕ) (id : List Char) : ℕ := (hashOfId id).toNat &&& (count - 1)

/-- `grow_state_hash_table`.  The longest chain is that of the old table. -/
def growStateHashTable (htab : ActStateset) : ActStateset where
  longestChainLength := htab.buckets.foldl (fun n chain => max n chain.length) 0
  buckets := rechain nameSlot htab.buckets (2 * htab.buckets.length)

/-- The table that a name is searched in: a chain that was found too long makes it grow. -/
def growIfLong (htab : ActStateset) : ActStateset :=
  if maxChainLength < htab.longestChainLength then growStateHashTable htab else htab

/-- The number of entries of a chain that the search for a name looks at. -/
def chainLength : List (List Char × ℕ) → List Char → ℕ
  | [], _ => 0
  | e :: chain, n => if e.1 = n then 1 else chainLength chain n + 1

/-- The action `<add-state>` -/
def addState (act : ActState) (n : List Char) : ℕ × ActState :=
  let states := growIfLong act.states
  let bucketId := nameSlot states.buckets.length n
  let chain := states.buckets.getD bucketId []
  let states :=
    { states with longestChainLength := max states.longestChainLength (chainLength chain n) }
  match chainFind chain n with
  | some s => (s, { act with states := states })
  | none =>
    let (s, fsm) := fsmAddstate act.fsm
    (s, { states := { states with buckets := chainPush states.buckets bucketId (n, s) }
          fsm := fsm })

/-! ## §3 Productions -/

/-- The production `label` without its last token, where it applies. -/
def labelValue : Token → Option (Option Byte)
  | .esc text => some (escValue text)
  | .oct text => some (octValue text)
  | .hex text => some (hexValue text)
  | .char text => some (charValue text)
  | _ => none

/-- `SEP`, or the error that it was expected -/
def parseSep (act : ActState) : List Token → Option (ActState × List Token)
  | .sep :: toks => some (act, toks)
  | _ => none

/-- What may stand between the second state of an `edge` and its end. -/
def parseTransition (act : ActState) (x y : ℕ) (toks : List Token) :
    Option (ActState × List Token) :=
  match toks with
  | .any :: toks => some ({ act with fsm := fsmAddedgeAny act.fsm x y }, toks)
  | tok :: toks' =>
    match labelValue tok with
    | none => some ({ act with fsm := fsmAddedgeEpsilon act.fsm x y }, toks)
    | some value =>
      match value, toks' with
      | some c, .label :: toks'' =>
        some ({ act with fsm := fsmAddedgeLiteral act.fsm x y c }, toks'')
      | _, _ => none
  | [] => some ({ act with fsm := fsmAddedgeEpsilon act.fsm x y }, [])

/-- The productions `edge` and `decl`, after their first name. -/
def parseItem (act : ActState) (a : List Char) : List Token → Option (ActState × List Token)
  | .to :: .ident b :: toks => do
    let (x, act) := addState act a
    let (y, act) := addState act b
    let (act, toks) ← parseTransition act x y toks
    parseSep act toks
  | .sep :: toks => parseSep (addState act a).2 (.sep :: toks)
  | _ => none

/-- The production `items`.  The number of tokens is fuel enough. -/
def parseItems : ℕ → ActState → List Token → Option (ActState × List Token)
  | fuel, act, .ident a :: toks =>
    match fuel with
    | 0 => none
    | fuel + 1 => (parseItem act a toks).bind fun (act, toks) => parseItems fuel act toks
  | _, act, toks => some (act, toks)

/-- The production `xstart` -/
def parseXstart (act : ActState) : List Token → Option (ActState × List Token)
  | .start :: .ident n :: toks => do
    let (act, toks) ← parseSep act toks
    let (s, act) := addState act n
    return ({ act with fsm := fsmSetstart act.fsm s }, toks)
  | .start :: _ => none
  | toks => some (act, toks)

/-- The action `<mark-end-id>` -/
def markEndId (act : ActState) (s id : ℕ) : ActState :=
  { act with fsm := { act.fsm with endidInfo := endidSet act.fsm.endidInfo s id } }

/-- The production `end-ids` -/
def parseEndIds (s : ℕ) : ActState → List Token → Option (ActState × List Token)
  | act, .endid text :: .comma :: toks =>
    (endidValue text).bind fun id => parseEndIds s (markEndId act s id) toks
  | act, .endid text :: toks => (endidValue text).map fun id => (markEndId act s id, toks)
  | _, _ => none

/-- What may follow a state in `end-states`: a list of end IDs. -/
def parseEndIdList (act : ActState) (s : ℕ) : List Token → Option (ActState × List Token)
  | .equals :: .openendids :: .closeendids :: toks => some (act, toks)
  | .equals :: .openendids :: toks => do
    let (act, toks) ← parseEndIds s act toks
    match toks with
    | .closeendids :: toks => return (act, toks)
    | _ => none
  | .equals :: _ => none
  | toks => some (act, toks)

/-- The production `end-states`.  The number of tokens is fuel enough. -/
def parseEndStates : ℕ → ActState → List Token → Option (ActState × List Token)
  | fuel + 1, act, .ident n :: toks => do
    let (s, act) := addState act n
    let act := { act with fsm := fsmSetend act.fsm s true }
    let (act, toks) ← parseEndIdList act s toks
    match toks with
    | .comma :: toks => parseEndStates fuel act toks
    | _ => return (act, toks)
  | _, _, _ => none

/-- The production `xend` -/
def parseXend (act : ActState) : List Token → Option (ActState × List Token)
  | .ends :: toks => do
    let (act, toks) ← parseEndStates toks.length act toks
    parseSep act toks
  | toks => some (act, toks)

/-- The table and the FSM that `fsm_parse` starts from. -/
def actStateInit : ActState where
  states := { longestChainLength := 0, buckets := List.replicate defBuckets [] }
  fsm := fsmNew

def fsmParse (toks : List Token) : Option Fsm := do
  let (act, toks) ← parseItems toks.length actStateInit toks
  let (act, toks) ← parseXstart act toks
  let (act, toks) ← parseXend act toks
  match toks with
  | [.eof] => return act.fsm
  | _ => none

end Libfsm
