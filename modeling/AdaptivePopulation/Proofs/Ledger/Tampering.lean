import AdaptivePopulation.Ledger.Edit
import AdaptivePopulation.Proofs.Ledger.Commitment

/-!
# Tampering

What verification notices when the blocks of a recorded ledger are changed.  A new value in a field
that verification looks at is refused at that block, or the digests of its old and its new bytes
collide.  Blocks that are dropped, moved or repeated, under whatever indices, pass a chained ledger
only as a front of it: the links lead back to the first block one by one, unless digests collide.
-/

namespace AdaptivePopulation

namespace BlockEdit

/-- The edit puts another value into a field that verification looks at.  It looks at the time down
to the millisecond, at the measure as it is written, and not at the two names of a transition, which
its text repeats. -/
def Alters (e : BlockEdit) (b : LedgerBlock) : Prop :=
  match e with
  | .index n => n ≠ b.index
  | .subject s => s ≠ b.subject
  | .source _ | .target _ => False
  | .transition s => s ≠ b.transition
  | .integration x =>
    Decimal.NumberFormat.report.write x ≠ Decimal.NumberFormat.report.write b.integration
  | .time t => t.millis ≠ b.time.millis
  | .hash h => h ≠ b.hash
  | .previous h => h ≠ b.previous

/-- What verification has to say about a block that has been edited. -/
def complaint (e : BlockEdit) (b : LedgerBlock) : LedgerError :=
  match e with
  | .index n => .outOfSequence n
  | .previous _ => .brokenLink b.index
  | _ => .hashMismatch b.index

end BlockEdit

namespace Ledger

open LedgerBlock

variable {linkage : HashLinkage} {position : Nat} {preceding : Option ContentHash}
  {b c : LedgerBlock}

/-! ## One field of one block -/

/-- A block with other content under the same hash is refused, or the digests collide. -/
theorem mismatch_or_collides (fits : b.Fits linkage position preceding) (index : c.index = b.index)
    (previous : c.previous = b.previous) (hash : c.hash = b.hash) (content : c.content ≠ b.content)
    (rest : List LedgerBlock) :
    verifyFrom linkage position preceding (c :: rest) = .error (.hashMismatch b.index) ∨
      b.Collides c := by
  by_cases expected : c.expectedHash = c.hash
  · have bytes : b.hashed ≠ c.hashed := fun e =>
      content (link_content_eq_of_hashed_eq e (by rw [previous])).2.symm
    exact Or.inr ⟨bytes, digest_eq_of_hash_eq fits.hash expected hash.symm⟩
  · left
    rw [← index]
    exact verifyFrom_hashMismatch rest (index.trans fits.index) (previous.trans fits.previous)
      expected

/-- At the place of a block that fits, an edit of it is refused, or the digests collide. -/
theorem refused_or_collides {e : BlockEdit} (fits : b.Fits linkage position preceding)
    (h : e.Alters b) (rest : List LedgerBlock) :
    verifyFrom linkage position preceding (e.apply b :: rest) = .error (e.complaint b) ∨
      b.Collides (e.apply b) := by
  cases e with
  | index n =>
    have moved : n ≠ position := fits.index ▸ h
    exact Or.inl (verifyFrom_outOfSequence rest moved)
  | previous link =>
    have broken : link ≠ linkage.link preceding := fits.previous ▸ h
    exact Or.inl (verifyFrom_brokenLink rest fits.index broken)
  | hash other =>
    have forged : b.expectedHash ≠ other := by
      rw [fits.hash]
      exact Ne.symm h
    exact Or.inl (verifyFrom_hashMismatch rest fits.index fits.previous forged)
  | subject s =>
    refine mismatch_or_collides (c := (BlockEdit.subject s).apply b) fits rfl rfl rfl
      (fun e => h ?_) rest
    simpa [content, blockContent, BlockEdit.apply] using e
  | transition s =>
    refine mismatch_or_collides (c := (BlockEdit.transition s).apply b) fits rfl rfl rfl
      (fun e => h ?_) rest
    simpa [content, blockContent, BlockEdit.apply] using e
  | integration x =>
    refine mismatch_or_collides (c := (BlockEdit.integration x).apply b) fits rfl rfl rfl
      (fun e => h (String.ofList_injective ?_)) rest
    simpa [content, blockContent, BlockEdit.apply] using e
  | time t =>
    refine mismatch_or_collides (c := (BlockEdit.time t).apply b) fits rfl rfl rfl
      (fun e => h (Decimal.writeInt_injective (String.ofList_injective ?_))) rest
    simpa [content, blockContent, BlockEdit.apply] using e
  | source s => exact h.elim
  | target s => exact h.elim

/-- A new value in a field that verification looks at, in any block of a consistent ledger. -/
theorem verify_edit {l : Ledger} (consistent : l.verify = .ok ()) {e : BlockEdit}
    (hb : l.blocks[position]? = some b) (h : e.Alters b) :
    ((LedgerEdit.block position e).apply l).verify = .error (e.complaint b) ∨
      b.Collides (e.apply b) := by
  obtain ⟨inside, rfl⟩ := List.getElem?_eq_some_iff.1 hb
  have front := verify_take consistent position
  have parts : (Ledger.mk l.linkage
      (l.blocks.take position ++ l.blocks[position] :: l.blocks.drop (position + 1))).verify =
        .ok () := by
    rw [List.getElem_cons_drop, List.take_append_drop]
    exact consistent
  have fits := fits_of_verify parts
  show (Ledger.mk l.linkage (l.blocks.modify position e.apply)).verify = _ ∨ _
  rw [List.modify_eq_take_cons_drop inside, verify_append, front]
  exact refused_or_collides fits h _

/-- Whatever has been recorded under whatever clock: a new value in one field of one block, if
verification looks at the field, is refused with the complaint that belongs to it, or different
bytes hashed for the block before and after the edit have the same digest. -/
theorem edited_block_refused (linkage : HashLinkage) (records : List (Instant × Transition))
    {position : Nat} {b : LedgerBlock} {e : BlockEdit}
    (hb : (recorded linkage records).blocks[position]? = some b) (h : e.Alters b) :
    ((LedgerEdit.block position e).apply (recorded linkage records)).verify =
        .error (e.complaint b) ∨
      b.Collides (e.apply b) :=
  verify_edit (recorded_spec linkage records).2 hb h

/-- In the second block the subject gives way to another one. -/
theorem edited_block_refused_subject :
    let first : Transition := ⟨"node-000", "Explore", "Sync", 1.5⟩
    let second : Transition := ⟨"node-000", "Sync", "Decay", 0.5⟩
    let l := recorded .chained [(.epoch, first), (.epoch, second)]
    let b := ((empty .chained).record .epoch first).nextBlock .epoch second
    let e := BlockEdit.subject "node-001"
    l.blocks[1]? = some b ∧ e.Alters b ∧
      (((LedgerEdit.block 1 e).apply l).verify = .error (.hashMismatch 1) ∨
        b.Collides (e.apply b)) := by
  intro first second l b e
  have hb : l.blocks[1]? = some b := rfl
  have alters : e.Alters b := by
    show "node-001" ≠ "node-000"
    decide
  exact ⟨hb, alters, edited_block_refused .chained _ hb alters⟩

/-- An edit that verification cannot see leaves what is checked and what is hashed as it was. -/
theorem fits_of_not_alters {e : BlockEdit} (fits : b.Fits linkage position preceding)
    (h : ¬ e.Alters b) :
    (e.apply b).Fits linkage position preceding ∧ (e.apply b).hashed = b.hashed := by
  have same : (e.apply b).index = b.index ∧ (e.apply b).previous = b.previous ∧
      (e.apply b).hash = b.hash ∧ (e.apply b).content = b.content := by
    cases e with
    | source s => exact ⟨rfl, rfl, rfl, rfl⟩
    | target s => exact ⟨rfl, rfl, rfl, rfl⟩
    | index n => simp [BlockEdit.apply, not_not.1 h, content]
    | subject s => simp [BlockEdit.apply, not_not.1 h, content]
    | transition s => simp [BlockEdit.apply, not_not.1 h, content]
    | hash other => simp [BlockEdit.apply, not_not.1 h, content]
    | previous link => simp [BlockEdit.apply, not_not.1 h, content]
    | integration x => simp [BlockEdit.apply, not_not.1 h, content, blockContent]
    | time t => simp [BlockEdit.apply, not_not.1 h, content, blockContent]
  obtain ⟨index, previous, hash, content⟩ := same
  refine ⟨⟨index.trans fits.index, previous.trans fits.previous, ?_⟩, ?_⟩
  · rw [expectedHash, previous, content, hash]
    exact fits.hash
  · rw [hashed, hashed, linkBytes, linkBytes, previous, content]

/-- A ledger of one block with an edit that verification cannot see: nothing is refused, and with
one list of bytes there is no collision. -/
theorem not_exposed_of_not_alters {e : BlockEdit} (fits : b.Fits linkage 0 none)
    (h : ¬ e.Alters b) :
    ¬ ((Ledger.mk linkage [e.apply b]).verify ≠ .ok () ∨
      ∃ c ∈ [b, e.apply b], ∃ d ∈ [b, e.apply b], c.Collides d) := by
  obtain ⟨fits', bytes⟩ := fits_of_not_alters fits h
  have all : ∀ c ∈ [b, e.apply b], c.hashed = b.hashed := by simp [bytes]
  rintro (refused | ⟨c, hc, d, hd, differ, -⟩)
  · exact refused (verifyFrom_cons.2 ⟨fits', rfl⟩)
  · exact differ ((all c hc).trans (all d hd).symm)

/-- The two names of a transition and the part of the time below a millisecond are neither checked
nor hashed: in a ledger of one block other values of theirs pass, and without a collision. -/
theorem unhashed_edits_pass :
    let l := recorded .chained [(.epoch, ⟨"node-000", "Explore", "Sync", 1.5⟩)]
    ∃ b, l.blocks = [b] ∧
      ∀ e ∈ [BlockEdit.source "Decay", .target "Decay", .time ⟨0, 1⟩],
        e.apply b ≠ b ∧
        let m := (LedgerEdit.block 0 e).apply l
        ¬ (m.verify ≠ .ok () ∨
          ∃ c ∈ l.blocks ++ m.blocks, ∃ d ∈ l.blocks ++ m.blocks, c.Collides d) := by
  intro l
  have fits := nextBlock_fits (empty .chained) .epoch ⟨"node-000", "Explore", "Sync", 1.5⟩
  refine ⟨_, rfl, ?_⟩
  simp only [List.forall_mem_cons]
  refine ⟨⟨?_, not_exposed_of_not_alters fits id⟩, ⟨?_, not_exposed_of_not_alters fits id⟩,
    ⟨?_, not_exposed_of_not_alters fits (not_not.2 rfl)⟩, nofun⟩
  · exact fun e => absurd (congrArg LedgerBlock.source e) (by decide)
  · exact fun e => absurd (congrArg LedgerBlock.target e) (by decide)
  · exact fun e => absurd (congrArg LedgerBlock.time e) (by decide)

/-! ## Blocks in other places -/

/-- A consistent chain that grows by a copy of a block of another one, of which it is a front, is
still a front of it, or a collision is among the blocks of the other. -/
theorem concat_copy_prefix_or_collides {blocks front : List LedgerBlock} {index : Nat}
    (consistent : (Ledger.mk .chained blocks).verify = .ok ())
    (v : (Ledger.mk .chained front).verify = .ok ()) (hfront : front <+: blocks) (hb : b ∈ blocks)
    (fits : { b with index }.Fits .chained front.length (lastHash front)) :
    front ++ [{ b with index }] <+: blocks ∨ ∃ c ∈ blocks, ∃ d ∈ blocks, c.Collides d := by
  obtain ⟨before, after, rfl⟩ := List.append_of_mem hb
  have here := fits_of_verify consistent
  -- The link of a copy is that of the original, so both follow the same hash.
  have links : lastHash front = lastHash before := fits.previous.symm.trans here.previous
  rcases forall₂_matches_or_collides v (verify_of_append consistent) links with
    all | ⟨c, hc, d, hd, collides⟩
  · have same : front = before :=
      (List.prefix_of_prefix_length_le hfront (List.prefix_append _ _)
        (Nat.le_of_eq all.length_eq)).eq_of_length all.length_eq
    have original : { b with index } = b := by
      have : index = b.index := by rw [here.index, ← same]; exact fits.index
      rw [this]
    rw [original, same]
    exact Or.inl ⟨after, by simp⟩
  · exact Or.inr ⟨c, hfront.subset hc, d, List.mem_append_left _ hd, collides⟩

theorem prefix_or_collides {blocks copies : List LedgerBlock}
    (consistent : (Ledger.mk .chained blocks).verify = .ok ())
    (copied : ∀ c ∈ copies, ∃ b ∈ blocks, ∃ index, c = { b with index })
    (h : (Ledger.mk .chained copies).verify = .ok ()) :
    copies <+: blocks ∨ ∃ b ∈ blocks, ∃ c ∈ blocks, b.Collides c := by
  induction copies using List.reverseRecOn with
  | nil => exact Or.inl List.nil_prefix
  | append_singleton front c ih =>
    obtain ⟨v, fits⟩ := verify_concat.1 h
    obtain ⟨b, hb, index, rfl⟩ := copied c (by simp)
    rcases ih (fun c hc => copied c (List.mem_append_left _ hc)) v with hfront | collision
    · exact concat_copy_prefix_or_collides consistent v hfront hb fits
    · exact Or.inr collision

/-- Whatever has been recorded in a chained ledger: blocks of it that are dropped, moved, repeated
and renumbered at will pass verification only as a front of the ledger, or different bytes hashed
for blocks of the ledger have the same digest. -/
theorem rearranged_blocks_prefix (records : List (Instant × Transition))
    {copies : List LedgerBlock}
    (copied : ∀ c ∈ copies, ∃ b ∈ (recorded .chained records).blocks,
      ∃ index, c = { b with index })
    (h : (Ledger.mk .chained copies).verify = .ok ()) :
    copies <+: (recorded .chained records).blocks ∨
      ∃ b ∈ (recorded .chained records).blocks, ∃ c ∈ (recorded .chained records).blocks,
        b.Collides c := by
  obtain ⟨linkage, consistent⟩ := recorded_spec .chained records
  rw [verify, linkage] at consistent
  exact prefix_or_collides consistent copied h

/-- The last of three blocks is dropped. -/
theorem rearranged_blocks_prefix_dropped :
    let t : Transition := ⟨"node-000", "Explore", "Sync", 1.5⟩
    let l := recorded .chained [(.epoch, t), (.epoch, t), (.epoch, t)]
    (∀ c ∈ l.blocks.take 2, ∃ b ∈ l.blocks, ∃ index, c = { b with index }) ∧
    (Ledger.mk .chained (l.blocks.take 2)).verify = .ok () ∧
    (l.blocks.take 2 <+: l.blocks ∨ ∃ b ∈ l.blocks, ∃ c ∈ l.blocks, b.Collides c) := by
  intro t l
  have copied : ∀ c ∈ l.blocks.take 2, ∃ b ∈ l.blocks, ∃ index, c = { b with index } :=
    fun c hc => ⟨c, List.mem_of_mem_take hc, c.index, rfl⟩
  have consistent : (Ledger.mk .chained (l.blocks.take 2)).verify = .ok () := by
    obtain ⟨linkage, consistent⟩ := recorded_spec .chained [(.epoch, t), (.epoch, t), (.epoch, t)]
    have shorter := verify_take consistent 2
    rwa [linkage] at shorter
  exact ⟨copied, consistent, rearranged_blocks_prefix _ copied consistent⟩

end Ledger

end AdaptivePopulation
