import AdaptivePopulation.Ledger.Basic

/-!
# Edits of recorded blocks

Changes to what a ledger holds, of the kind that verification is there to notice.  They are made to
the text under which a ledger is kept, so that only a ledger whose text can be read comes out of
them.
-/

namespace AdaptivePopulation

/-- A new value for one field of a block. -/
inductive BlockEdit where
  | index (n : Nat)
  | subject (s : String)
  | source (s : String)
  | target (s : String)
  | transition (s : String)
  | integration (x : Float)
  | time (t : Instant)
  | hash (h : ContentHash)
  | previous (h : Option ContentHash)

/-- The block after the edit. -/
def BlockEdit.apply (e : BlockEdit) (b : LedgerBlock) : LedgerBlock :=
  match e with
  | .index n => { b with index := n }
  | .subject s => { b with subject := s }
  | .source s => { b with source := s }
  | .target s => { b with target := s }
  | .transition s => { b with transition := s }
  | .integration x => { b with integration := x }
  | .time t => { b with time := t }
  | .hash h => { b with hash := h }
  | .previous h => { b with previous := h }

/-- A change to the blocks of a ledger or to its linkage. -/
inductive LedgerEdit where
  /-- One block gets a new value in one field. -/
  | block (position : Nat) (e : BlockEdit)
  /-- One block is left out. -/
  | remove (position : Nat)
  /-- Two blocks change places. -/
  | swap (i j : Nat)
  /-- Every index becomes the position of its block. -/
  | renumber
  /-- The same blocks stand under another linkage. -/
  | relink (linkage : HashLinkage)

/-- The list with the entries at two positions exchanged. -/
def exchange {α : Type} (l : List α) (i j : Nat) : List α :=
  match l[i]?, l[j]? with
  | some a, some b => (l.set i b).set j a
  | _, _ => l

/-- The ledger after the edit; a position beyond its end changes nothing. -/
def LedgerEdit.apply (e : LedgerEdit) (l : Ledger) : Ledger :=
  match e with
  | .block position e => { l with blocks := l.blocks.modify position e.apply }
  | .remove position => { l with blocks := l.blocks.eraseIdx position }
  | .swap i j => { l with blocks := exchange l.blocks i j }
  | .renumber => { l with blocks := l.blocks.zipIdx.map fun (b, i) => { b with index := i } }
  | .relink linkage => { l with linkage }

namespace Ledger

/-- The text of the ledger can be read: JSON has numbers for finite integrations only. -/
def Readable (l : Ledger) : Prop := ∀ b ∈ l.blocks, b.integration.isFinite

instance (l : Ledger) : Decidable l.Readable := inferInstanceAs (Decidable (∀ b ∈ l.blocks, _))

/-- The edited ledger, if its text can be read. -/
def edit? (l : Ledger) (e : LedgerEdit) : Option Ledger :=
  if (e.apply l).Readable then some (e.apply l) else none

end Ledger

end AdaptivePopulation
