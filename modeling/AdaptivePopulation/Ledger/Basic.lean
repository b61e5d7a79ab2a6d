import AdaptivePopulation.Calendar.Instant
import AdaptivePopulation.Decimal.Text
import AdaptivePopulation.Hash.ContentHash
import AdaptivePopulation.Tag

/-!
# Ledgers

An append-only record of transitions.  Each block carries a hash of its content; in a chained ledger
the hash of the preceding block is hashed along with it, so that a change of one block breaks all
later ones.
-/

namespace AdaptivePopulation

/-- How the hashes of blocks relate to each other. -/
inductive HashLinkage where
  | chained
  | independent
  deriving DecidableEq, Repr

instance : Inhabited HashLinkage := ⟨.chained⟩

instance : Tag HashLinkage where
  all := [.chained, .independent]
  name
    | .chained => "Chained"
    | .independent => "Independent"

/-- The preceding hash that a block refers to. -/
def HashLinkage.link (linkage : HashLinkage) (preceding : Option ContentHash) :
    Option ContentHash :=
  match linkage with
  | .chained => preceding
  | .independent => none

/-- A change to be recorded. -/
structure Transition where
  /-- Who changes: a node or the population. -/
  subject : String
  source : String
  target : String
  /-- The integration measure at the time of the change. -/
  integration : Float

/-- The transition as it is written: from one name to another. -/
def Transition.text (t : Transition) : String := t.source ++ " -> " ++ t.target

/-- A recorded transition with its place, its time and its hashes. -/
structure LedgerBlock where
  /-- The position in the ledger. -/
  index : Nat
  subject : String
  source : String
  target : String
  transition : String
  integration : Float
  time : Instant
  hash : ContentHash
  previous : Option ContentHash

/-- The text that is hashed for a block. -/
def blockContent (subject : String) (time : Instant) (transition : String) (integration : Float)
    (index : Nat) : String :=
  subject ++ "|" ++ String.ofList (Decimal.writeInt time.millis) ++ "|" ++ transition ++ "|" ++
    String.ofList (Decimal.NumberFormat.report.write integration) ++ "|" ++
    String.ofList (Nat.toDigits 10 index)

/-- The bytes of a text in UTF-8. -/
def utf8 (text : String) : List UInt8 := text.toUTF8.data.toList

namespace LedgerBlock

/-- The text that is hashed for the block. -/
def content (b : LedgerBlock) : String :=
  blockContent b.subject b.time b.transition b.integration b.index

/-- The hash that the block ought to carry. -/
def expectedHash (b : LedgerBlock) : ContentHash := .linked b.previous (utf8 b.content)

end LedgerBlock

/-- Why a ledger is not consistent, with the index that the block carries. -/
inductive LedgerError where
  | hashMismatch (index : Nat)
  | brokenLink (index : Nat)
  | outOfSequence (index : Nat)
  deriving DecidableEq, Repr

/-- The text of an error. -/
def LedgerError.message : LedgerError → String
  | .hashMismatch index =>
    "Block " ++ String.ofList (Nat.toDigits 10 index) ++ ": content hash mismatch"
  | .brokenLink index =>
    "Block " ++ String.ofList (Nat.toDigits 10 index) ++ ": previous-hash link broken"
  | .outOfSequence index =>
    "Block " ++ String.ofList (Nat.toDigits 10 index) ++ ": out of sequence"

/-- The blocks in the order of recording, and how their hashes relate. -/
structure Ledger where
  linkage : HashLinkage
  blocks : List LedgerBlock

namespace Ledger

/-- The ledger without blocks. -/
def empty (linkage : HashLinkage) : Ledger := ⟨linkage, []⟩

/-- The block that a transition is recorded in. -/
def nextBlock (l : Ledger) (now : Instant) (t : Transition) : LedgerBlock :=
  let index := l.blocks.length
  let previous := l.linkage.link (l.blocks.getLast?.map LedgerBlock.hash)
  { index, subject := t.subject, source := t.source, target := t.target, transition := t.text,
    integration := t.integration, time := now, previous
    hash := .linked previous (utf8 (blockContent t.subject now t.text t.integration index)) }

/-- Appends a transition. -/
def record (l : Ledger) (now : Instant) (t : Transition) : Ledger :=
  { l with blocks := l.blocks ++ [l.nextBlock now t] }

/-- The last `n` blocks, oldest first. -/
def recent (l : Ledger) (n : Nat) : List LedgerBlock := l.blocks.drop (l.blocks.length - n)

/-- Checks blocks from a position on: their indices, their links, and their hashes. -/
def verifyFrom (linkage : HashLinkage) :
    (position : Nat) → (preceding : Option ContentHash) → List LedgerBlock → Except LedgerError Unit
  | _, _, [] => .ok ()
  | position, preceding, b :: rest =>
    if b.index ≠ position then .error (.outOfSequence b.index)
    else if b.previous ≠ linkage.link preceding then .error (.brokenLink b.index)
    else if b.expectedHash ≠ b.hash then .error (.hashMismatch b.index)
    else verifyFrom linkage (position + 1) (some b.hash) rest

/-- Checks every block; the first inconsistent one is reported. -/
def verify (l : Ledger) : Except LedgerError Unit := verifyFrom l.linkage 0 none l.blocks

end Ledger

end AdaptivePopulation
