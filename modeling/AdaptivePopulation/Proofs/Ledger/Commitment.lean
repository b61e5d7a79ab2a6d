import Mathlib.Data.List.Forall2
import AdaptivePopulation.Proofs.Ledger.Content
import AdaptivePopulation.Proofs.Ledger.Verification

/-!
# The last hash commits to the history

Two chained ledgers that verify and end in the same hash hold the same hashed bytes at every
position, unless two different lists of bytes among those have the same digest.  The argument goes
backwards: equal bytes give the index, the index tells whether a link stands in front of the
content, and an equal link is an equal hash one block earlier.
-/

namespace AdaptivePopulation

namespace LedgerBlock

/-- Two blocks with the same hashed bytes, the same position and the same hashes.  The fields that
are hashed agree as well, as far as a bar in the transition does not blur where they end. -/
structure Matches (b c : LedgerBlock) : Prop where
  hashed : b.hashed = c.hashed
  index : b.index = c.index
  hash : b.hash = c.hash
  previous : b.previous = c.previous
  fields : '|' ∉ b.transition.toList → '|' ∉ c.transition.toList →
    b.subject = c.subject ∧ b.time.millis = c.time.millis ∧ b.transition = c.transition ∧
      Decimal.NumberFormat.report.write b.integration =
        Decimal.NumberFormat.report.write c.integration

/-- Different bytes were hashed for the two blocks, with the same digest. -/
def Collides (b c : LedgerBlock) : Prop :=
  b.hashed ≠ c.hashed ∧ Sha256.digest b.hashed = Sha256.digest c.hashed

theorem digest_eq_of_hash_eq {b c : LedgerBlock} (hb : b.expectedHash = b.hash)
    (hc : c.expectedHash = c.hash) (h : b.hash = c.hash) :
    Sha256.digest b.hashed = Sha256.digest c.hashed := by
  rw [← hb, ← hc, expectedHash_eq_digest, expectedHash_eq_digest] at h
  exact congrArg ContentHash.bytes h

/-- Blocks with equal hashed bytes and equal hashes match, if only the first block of a ledger has
no link. -/
theorem Matches.of_hashed_eq {b c : LedgerBlock} (h : b.hashed = c.hashed)
    (hash : b.hash = c.hash) (hb : b.previous.isSome = decide (b.index ≠ 0))
    (hc : c.previous.isSome = decide (c.index ≠ 0)) : b.Matches c := by
  have index := index_eq_of_hashed_eq h
  obtain ⟨previous, content⟩ := link_content_eq_of_hashed_eq h (by rw [hb, hc, index])
  refine ⟨h, index, hash, previous, fun bar bar' => ?_⟩
  obtain ⟨subject, time, transition, integration, -⟩ := blockContent_inj bar bar' content
  exact ⟨subject, time, transition, integration⟩

end LedgerBlock

namespace Ledger

open LedgerBlock

theorem isSome_lastHash (blocks : List LedgerBlock) :
    (lastHash blocks).isSome = decide (blocks.length ≠ 0) := by
  cases blocks using List.reverseRecOn with
  | nil => rfl
  | append_singleton blocks b => simp

/-- In a chained ledger exactly the blocks behind the first one have a link. -/
theorem isSome_previous {blocks : List LedgerBlock} {b : LedgerBlock}
    (h : b.Fits .chained blocks.length (lastHash blocks)) :
    b.previous.isSome = decide (b.index ≠ 0) := by
  rw [h.previous, h.index]
  exact isSome_lastHash blocks

theorem matches_or_collides {bs cs : List LedgerBlock} {b c : LedgerBlock}
    (hb : b.Fits .chained bs.length (lastHash bs)) (hc : c.Fits .chained cs.length (lastHash cs))
    (h : b.hash = c.hash) : b.Matches c ∨ b.Collides c := by
  by_cases bytes : b.hashed = c.hashed
  · exact Or.inl (.of_hashed_eq bytes h (isSome_previous hb) (isSome_previous hc))
  · exact Or.inr ⟨bytes, digest_eq_of_hash_eq hb.hash hc.hash h⟩

/-- Chains with the same last hash match block by block, or a collision is among them. -/
theorem forall₂_matches_or_collides {bs cs : List LedgerBlock}
    (hbs : (Ledger.mk .chained bs).verify = .ok ()) (hcs : (Ledger.mk .chained cs).verify = .ok ())
    (h : lastHash bs = lastHash cs) :
    List.Forall₂ Matches bs cs ∨ ∃ b ∈ bs, ∃ c ∈ cs, b.Collides c := by
  induction bs using List.reverseRecOn generalizing cs with
  | nil =>
    cases cs using List.reverseRecOn with
    | nil => exact Or.inl .nil
    | append_singleton cs c => simp at h
  | append_singleton bs b ih =>
    cases cs using List.reverseRecOn with
    | nil => simp at h
    | append_singleton cs c =>
      obtain ⟨vbs, fb⟩ := verify_concat.1 hbs
      obtain ⟨vcs, fc⟩ := verify_concat.1 hcs
      have hash : b.hash = c.hash := by simpa using h
      rcases matches_or_collides fb fc hash with m | collides
      · have links : lastHash bs = lastHash cs := by
          have := m.previous
          rwa [fb.previous, fc.previous] at this
        rcases ih vbs vcs links with front | ⟨b', hb', c', hc', collides⟩
        · exact Or.inl (List.rel_append front (.cons m .nil))
        · exact Or.inr ⟨b', List.mem_append_left _ hb', c', List.mem_append_left _ hc', collides⟩
      · exact Or.inr ⟨b, by simp, c, by simp, collides⟩

/-- Two chained ledgers that verify and whose last blocks have the same hash are of the same length
and match at every position, or different bytes hashed for a block of one and a block of the other
have the same digest. -/
theorem last_hash_commits {l m : Ledger} (hl : l.linkage = .chained) (hm : m.linkage = .chained)
    (vl : l.verify = .ok ()) (vm : m.verify = .ok ()) {b c : LedgerBlock}
    (hb : l.blocks.getLast? = some b) (hc : m.blocks.getLast? = some c) (h : b.hash = c.hash) :
    (l.blocks.length = m.blocks.length ∧ List.Forall₂ Matches l.blocks m.blocks) ∨
      ∃ b ∈ l.blocks, ∃ c ∈ m.blocks, b.Collides c := by
  obtain ⟨_, bs⟩ := l
  obtain ⟨_, cs⟩ := m
  subst hl hm
  have last : lastHash bs = lastHash cs := by
    simp only [lastHash]
    rw [hb, hc, Option.map_some, Option.map_some, h]
  rcases forall₂_matches_or_collides vl vm last with all | collision
  · exact Or.inl ⟨all.length_eq, all⟩
  · exact Or.inr collision

/-- The names that a transition leads between are not hashed, only its text: two ledgers that cut
the same text in different places end in the same hash. -/
theorem last_hash_commits_to_text :
    let first : Transition := ⟨"node|0", "Explore", "Sync", 1.5⟩
    let l := ((empty .chained).record .epoch first).record .epoch ⟨"node|0", "A", "B -> C", 0.5⟩
    let m := ((empty .chained).record .epoch first).record .epoch ⟨"node|0", "A -> B", "C", 0.5⟩
    l.verify = .ok () ∧ m.verify = .ok () ∧ l.blocks ≠ m.blocks ∧
      ((l.blocks.length = m.blocks.length ∧ List.Forall₂ Matches l.blocks m.blocks) ∨
        ∃ b ∈ l.blocks, ∃ c ∈ m.blocks, b.Collides c) := by
  intro first l m
  have vl : l.verify = .ok () := verify_record (verify_record verify_empty _ _) _ _
  have vm : m.verify = .ok () := verify_record (verify_record verify_empty _ _) _ _
  have text : "A" ++ " -> " ++ "B -> C" = "A -> B" ++ " -> " ++ "C" := by decide
  have hash :
      (((empty .chained).record .epoch first).nextBlock .epoch
        ⟨"node|0", "A", "B -> C", 0.5⟩).hash =
      (((empty .chained).record .epoch first).nextBlock .epoch
        ⟨"node|0", "A -> B", "C", 0.5⟩).hash := by
    simp only [nextBlock, Transition.text, text]
  have sources : l.blocks.map LedgerBlock.source ≠ m.blocks.map LedgerBlock.source := by decide
  exact ⟨vl, vm, fun e => sources (congrArg _ e),
    last_hash_commits rfl rfl vl vm (by simp [l]) (by simp [m]) hash⟩

end Ledger

end AdaptivePopulation
