import Mathlib.Data.List.Induction
import AdaptivePopulation.Ledger.Basic
import AdaptivePopulation.Proofs.Fallible

/-!
# Verification block by block

Verification accepts a ledger exactly if every block fits behind the blocks before it.  Of a list
cut in two it says what it says of the front and, if that is accepted, of the rest behind it.
Most of what is proved about ledgers goes from the last block backwards, so the rule is also stated
for a block at the end; `record` appends a block that fits, and so never changes the verdict.
-/

namespace AdaptivePopulation

/-- The index, the link and the hash of a block are those that its position and the preceding hash
call for. -/
structure LedgerBlock.Fits (linkage : HashLinkage) (position : Nat)
    (preceding : Option ContentHash) (b : LedgerBlock) : Prop where
  index : b.index = position
  previous : b.previous = linkage.link preceding
  hash : b.expectedHash = b.hash

/-- The transition that a block tells of. -/
def LedgerBlock.change (b : LedgerBlock) : Transition :=
  ⟨b.subject, b.source, b.target, b.integration⟩

namespace Ledger

/-- The hash that a block behind others is linked to. -/
def lastHash (blocks : List LedgerBlock) : Option ContentHash :=
  blocks.getLast?.map LedgerBlock.hash

@[simp] theorem lastHash_nil : lastHash [] = none := rfl

@[simp] theorem lastHash_concat (blocks : List LedgerBlock) (b : LedgerBlock) :
    lastHash (blocks ++ [b]) = some b.hash := by
  simp [lastHash]

/-- The last hash of a list that follows another hash. -/
theorem or_lastHash_cons (b : LedgerBlock) (rest : List LedgerBlock)
    (preceding : Option ContentHash) :
    (lastHash (b :: rest)).or preceding = (lastHash rest).or (some b.hash) := by
  cases rest using List.reverseRecOn with
  | nil => rfl
  | append_singleton rest c =>
    rw [← List.cons_append, lastHash_concat, lastHash_concat]
    rfl

/-! ## Lists of blocks -/

variable {linkage : HashLinkage}

theorem verifyFrom_cons {position : Nat} {preceding : Option ContentHash} {b : LedgerBlock}
    {rest : List LedgerBlock} :
    verifyFrom linkage position preceding (b :: rest) = .ok () ↔
      b.Fits linkage position preceding ∧
        verifyFrom linkage (position + 1) (some b.hash) rest = .ok () := by
  constructor
  · intro h
    rw [verifyFrom] at h
    split_ifs at h with hi hp hh
    exact ⟨⟨not_not.1 hi, not_not.1 hp, not_not.1 hh⟩, h⟩
  · rintro ⟨⟨hi, hp, hh⟩, h⟩
    rw [verifyFrom, if_neg (not_not.2 hi), if_neg (not_not.2 hp), if_neg (not_not.2 hh)]
    exact h

section Refusal

variable {position : Nat} {preceding : Option ContentHash} {b : LedgerBlock}
  (rest : List LedgerBlock)

theorem verifyFrom_outOfSequence (index : b.index ≠ position) :
    verifyFrom linkage position preceding (b :: rest) = .error (.outOfSequence b.index) :=
  if_pos index

theorem verifyFrom_brokenLink (index : b.index = position)
    (previous : b.previous ≠ linkage.link preceding) :
    verifyFrom linkage position preceding (b :: rest) = .error (.brokenLink b.index) := by
  rw [verifyFrom, if_neg (not_not.2 index), if_pos previous]

theorem verifyFrom_hashMismatch (index : b.index = position)
    (previous : b.previous = linkage.link preceding) (hash : b.expectedHash ≠ b.hash) :
    verifyFrom linkage position preceding (b :: rest) = .error (.hashMismatch b.index) := by
  rw [verifyFrom, if_neg (not_not.2 index), if_neg (not_not.2 previous), if_pos hash]

end Refusal

/-- The rest of a list is looked at once the front has been accepted. -/
theorem verifyFrom_append {position : Nat} {preceding : Option ContentHash}
    {front rest : List LedgerBlock} :
    verifyFrom linkage position preceding (front ++ rest) =
      verifyFrom linkage position preceding front >>= fun _ =>
        verifyFrom linkage (position + front.length) ((lastHash front).or preceding) rest := by
  induction front generalizing position preceding with
  | nil => rfl
  | cons b front ih =>
    rw [List.cons_append, verifyFrom, verifyFrom, or_lastHash_cons, List.length_cons,
      Nat.add_comm front.length 1, ← Nat.add_assoc]
    split_ifs
    · rfl
    · rfl
    · rfl
    · exact ih

/-- Verification looks at the rest of a ledger behind its front. -/
theorem verify_append {front rest : List LedgerBlock} :
    (Ledger.mk linkage (front ++ rest)).verify =
      (Ledger.mk linkage front).verify >>= fun _ =>
        verifyFrom linkage front.length (lastHash front) rest := by
  rw [verify, verifyFrom_append, Nat.zero_add, Option.or_none]
  rfl

/-- Verification looks at the last block after all others. -/
theorem verify_concat {blocks : List LedgerBlock} {b : LedgerBlock} :
    (Ledger.mk linkage (blocks ++ [b])).verify = .ok () ↔
      (Ledger.mk linkage blocks).verify = .ok () ∧
        b.Fits linkage blocks.length (lastHash blocks) := by
  rw [verify_append, bind_eq_ok]
  simp only [verifyFrom_cons]
  exact ⟨fun ⟨_, front, fits, _⟩ => ⟨front, fits⟩, fun ⟨front, fits⟩ => ⟨(), front, fits, rfl⟩⟩

theorem verify_of_append {front rest : List LedgerBlock}
    (h : (Ledger.mk linkage (front ++ rest)).verify = .ok ()) :
    (Ledger.mk linkage front).verify = .ok () := by
  rw [verify_append] at h
  obtain ⟨_, front, -⟩ := bind_eq_ok.1 h
  exact front

/-- A ledger that has lost its tail is still consistent. -/
theorem verify_take {l : Ledger} (h : l.verify = .ok ()) (count : Nat) :
    { l with blocks := l.blocks.take count }.verify = .ok () := by
  have whole : (Ledger.mk l.linkage (l.blocks.take count ++ l.blocks.drop count)).verify =
      .ok () := by
    rw [List.take_append_drop]
    exact h
  exact verify_of_append whole

/-- Every block of a consistent ledger fits behind those before it. -/
theorem fits_of_verify {front rest : List LedgerBlock} {b : LedgerBlock}
    (h : (Ledger.mk linkage (front ++ b :: rest)).verify = .ok ()) :
    b.Fits linkage front.length (lastHash front) := by
  rw [List.append_cons] at h
  exact (verify_concat.1 (verify_of_append h)).2

/-- The indices of a consistent ledger count its blocks. -/
theorem index_lt_of_verify {l : Ledger} (h : l.verify = .ok ()) {b : LedgerBlock}
    (hb : b ∈ l.blocks) : b.index < l.blocks.length := by
  obtain ⟨linkage, blocks⟩ := l
  obtain ⟨front, rest, rfl⟩ := List.append_of_mem hb
  rw [(fits_of_verify h).index]
  simp

/-! ## Recording -/

@[simp] theorem verify_empty : (empty linkage).verify = .ok () := rfl

theorem nextBlock_fits (l : Ledger) (now : Instant) (t : Transition) :
    (l.nextBlock now t).Fits l.linkage l.blocks.length (lastHash l.blocks) :=
  ⟨rfl, rfl, rfl⟩

@[simp] theorem blocks_record (l : Ledger) (now : Instant) (t : Transition) :
    (l.record now t).blocks = l.blocks ++ [l.nextBlock now t] :=
  rfl

/-- Recording changes nothing about what verification says, whatever the clock says. -/
theorem verify_record_eq (l : Ledger) (now : Instant) (t : Transition) :
    (l.record now t).verify = l.verify := by
  have last : verifyFrom l.linkage l.blocks.length (lastHash l.blocks) [l.nextBlock now t] =
      .ok () :=
    verifyFrom_cons.2 ⟨l.nextBlock_fits now t, rfl⟩
  rw [record, verify_append, last]
  cases l.verify <;> rfl

theorem verify_record {l : Ledger} (h : l.verify = .ok ()) (now : Instant) (t : Transition) :
    (l.record now t).verify = .ok () :=
  (verify_record_eq l now t).trans h

/-- The ledger in which transitions have been recorded one by one from the start on, each with the
reading of the clock at that moment. -/
def recorded (linkage : HashLinkage) (records : List (Instant × Transition)) : Ledger :=
  records.foldl (fun l r => l.record r.1 r.2) (empty linkage)

theorem recorded_spec (linkage : HashLinkage) (records : List (Instant × Transition)) :
    (recorded linkage records).linkage = linkage ∧
      (recorded linkage records).verify = .ok () := by
  induction records using List.reverseRecOn with
  | nil => exact ⟨rfl, verify_empty⟩
  | append_singleton records r ih =>
    rw [recorded, List.foldl_concat]
    exact ⟨ih.1, verify_record ih.2 r.1 r.2⟩

/-- Whatever is recorded, and whatever the clock says, a ledger is as consistent as before: its
blocks stay, and behind them comes one with the next index that tells of the transition.  So all
that is recorded from the start on is consistent, and so is every shorter ledger that it begins
with. -/
theorem recording_consistent (linkage : HashLinkage) :
    (empty linkage).verify = .ok () ∧
    (∀ (l : Ledger) (now : Instant) (t : Transition),
      (l.record now t).verify = l.verify ∧ (l.record now t).linkage = l.linkage ∧
      ∃ b, (l.record now t).blocks = l.blocks ++ [b] ∧ b.index = l.blocks.length ∧
        b.change = t ∧ b.transition = t.text ∧ b.time = now) ∧
    ∀ (records : List (Instant × Transition)) (count : Nat),
      let l := recorded linkage records
      l.verify = .ok () ∧ { l with blocks := l.blocks.take count }.verify = .ok () := by
  refine ⟨verify_empty, fun l now t => ?_, fun records count => ?_⟩
  · exact ⟨verify_record_eq l now t, rfl, l.nextBlock now t, rfl, rfl, rfl, rfl, rfl⟩
  · have consistent := (recorded_spec linkage records).2
    exact ⟨consistent, verify_take consistent count⟩

end Ledger

end AdaptivePopulation
