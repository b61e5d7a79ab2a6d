import Mathlib.Logic.Function.Basic
import AdaptivePopulation.Ledger.Basic
import AdaptivePopulation.Proofs.Decimal.Digits

/-!
# What is hashed for a block

A block's hash is the digest of one list of bytes: those of the hash it is linked to, if any, and
those of its content.  The bytes end in a bar and the digits of the index, so the index can be read
off their end whatever stands before.  Of the content the fields can be read off in the same way
from the end, as far as the transition contains no bar itself.
-/

namespace AdaptivePopulation

/-! ## Bytes of a text -/

theorem utf8_eq_flatMap (text : String) :
    utf8 text = text.toList.flatMap String.utf8EncodeChar := by
  have h : text.toByteArray = (text.toList.flatMap String.utf8EncodeChar).toByteArray :=
    String.utf8Encode_toList.symm
  rw [utf8, String.toUTF8_eq_toByteArray, h, List.data_toByteArray]

theorem utf8_append (s t : String) : utf8 (s ++ t) = utf8 s ++ utf8 t := by
  rw [utf8_eq_flatMap, utf8_eq_flatMap, utf8_eq_flatMap, String.toList_append, List.flatMap_append]

theorem utf8_injective : Function.Injective utf8 := by
  intro s t h
  have bytes : s.toByteArray.data = t.toByteArray.data := Array.toList_inj.1 h
  exact String.toByteArray_inj.1 (ByteArray.ext bytes)

theorem utf8_bar : utf8 "|" = [124] := rfl

theorem utf8EncodeChar_of_isDigit {c : Char} (h : c.isDigit) :
    String.utf8EncodeChar c = [UInt8.ofNat c.toNat] ∧ c.toNat < 124 := by
  have bound : c.toNat ≤ 57 := by
    simp only [Char.isDigit, Bool.and_eq_true, decide_eq_true_eq] at h
    exact h.2
  refine ⟨?_, by omega⟩
  unfold String.utf8EncodeChar
  exact if_pos (show c.toNat ≤ 127 by omega)

theorem bar_notMem_utf8_toDigits (n : Nat) :
    124 ∉ utf8 (String.ofList (Nat.toDigits 10 n)) := by
  intro h
  rw [utf8_eq_flatMap, String.toList_ofList] at h
  obtain ⟨c, hc, hb⟩ := List.mem_flatMap.1 h
  obtain ⟨encoded, bound⟩ :=
    utf8EncodeChar_of_isDigit (Nat.isDigit_of_mem_toDigits (by decide) (by decide) hc)
  rw [encoded, List.mem_singleton] at hb
  have : 124 = c.toNat % 2 ^ 8 := congrArg UInt8.toNat hb
  omega

/-! ## Reading from the end -/

/-- A list is cut in one way only at the last occurrence of an entry. -/
theorem append_cons_inj_of_notMem {α : Type} {a : α} {l l' r r' : List α} (hr : a ∉ r)
    (hr' : a ∉ r') (h : l ++ a :: r = l' ++ a :: r') : l = l' ∧ r = r' := by
  rcases List.append_eq_append_iff.1 h with ⟨m, rfl, e⟩ | ⟨m, rfl, e⟩
  · cases m with
    | nil => exact ⟨(List.append_nil l).symm, (List.cons.inj e).2⟩
    | cons b m => exact absurd (by simp [(List.cons.inj e).2]) hr
  · cases m with
    | nil => exact ⟨List.append_nil l', (List.cons.inj e).2.symm⟩
    | cons b m => exact absurd (by simp [(List.cons.inj e).2]) hr'

theorem append_bar_inj {s s' t t' : String} (ht : '|' ∉ t.toList) (ht' : '|' ∉ t'.toList)
    (h : s ++ "|" ++ t = s' ++ "|" ++ t') : s = s' ∧ t = t' := by
  have chars : s.toList ++ '|' :: t.toList = s'.toList ++ '|' :: t'.toList := by
    simpa using congrArg String.toList h
  obtain ⟨hs, ht⟩ := append_cons_inj_of_notMem ht ht' chars
  exact ⟨String.toList_inj.1 hs, String.toList_inj.1 ht⟩

/-- The fields that a content is made of, up to the precision at which they are hashed. -/
theorem blockContent_inj {s s' w w' : String} {t t' : Instant} {x x' : Float} {i i' : Nat}
    (hw : '|' ∉ w.toList) (hw' : '|' ∉ w'.toList)
    (h : blockContent s t w x i = blockContent s' t' w' x' i') :
    s = s' ∧ t.millis = t'.millis ∧ w = w' ∧
      Decimal.NumberFormat.report.write x = Decimal.NumberFormat.report.write x' ∧ i = i' := by
  have number (x : Float) :
      '|' ∉ (String.ofList (Decimal.NumberFormat.report.write x)).toList := by
    simpa using Decimal.bar_notMem_report x
  have digits (i : Nat) : '|' ∉ (String.ofList (Nat.toDigits 10 i)).toList := by
    simpa using Decimal.notMem_toDigits rfl i
  have int (n : Int) : '|' ∉ (String.ofList (Decimal.writeInt n)).toList := by
    simpa using Decimal.bar_notMem_writeInt n
  unfold blockContent at h
  obtain ⟨h, hi⟩ := append_bar_inj (digits i) (digits i') h
  obtain ⟨h, hx⟩ := append_bar_inj (number x) (number x') h
  obtain ⟨h, hw⟩ := append_bar_inj hw hw' h
  obtain ⟨hs, ht⟩ := append_bar_inj (int t.millis) (int t'.millis) h
  exact ⟨hs, Decimal.writeInt_injective (String.ofList_injective ht), hw,
    String.ofList_injective hx, Decimal.toDigits_injective (String.ofList_injective hi)⟩

namespace LedgerBlock

/-! ## The bytes of a block -/

/-- The bytes of the hash that a block is linked to. -/
def linkBytes (b : LedgerBlock) : List UInt8 :=
  match b.previous with
  | some p => p.bytes.toList
  | none => []

/-- The bytes that are hashed for a block. -/
def hashed (b : LedgerBlock) : List UInt8 := b.linkBytes ++ utf8 b.content

theorem expectedHash_eq_digest (b : LedgerBlock) : b.expectedHash = .digest b.hashed := by
  unfold expectedHash hashed linkBytes
  cases b.previous <;> rfl

/-- The index stands at the end of the hashed bytes, behind the last bar. -/
theorem hashed_eq (b : LedgerBlock) :
    ∃ front, b.hashed = front ++ 124 :: utf8 (String.ofList (Nat.toDigits 10 b.index)) := by
  refine ⟨b.linkBytes ++ utf8 (b.subject ++ "|" ++ String.ofList (Decimal.writeInt b.time.millis) ++
    "|" ++ b.transition ++ "|" ++
    String.ofList (Decimal.NumberFormat.report.write b.integration)), ?_⟩
  rw [hashed, content, blockContent, utf8_append, utf8_append _ "|", utf8_bar]
  simp only [List.append_assoc, List.cons_append, List.nil_append]

/-- Blocks with equal hashed bytes have equal indices. -/
theorem index_eq_of_hashed_eq {b c : LedgerBlock} (h : b.hashed = c.hashed) :
    b.index = c.index := by
  obtain ⟨front, hb⟩ := b.hashed_eq
  obtain ⟨front', hc⟩ := c.hashed_eq
  rw [hb, hc] at h
  have digits := (append_cons_inj_of_notMem (bar_notMem_utf8_toDigits _)
    (bar_notMem_utf8_toDigits _) h).2
  exact Decimal.toDigits_injective (String.ofList_injective (utf8_injective digits))

/-- Blocks with equal hashed bytes that are both linked, or both not, have equal links and equal
contents. -/
theorem link_content_eq_of_hashed_eq {b c : LedgerBlock} (h : b.hashed = c.hashed)
    (linked : b.previous.isSome = c.previous.isSome) :
    b.previous = c.previous ∧ b.content = c.content := by
  unfold hashed linkBytes at h
  cases hb : b.previous with
  | none =>
    cases hc : c.previous with
    | none =>
      simp only [hb, hc, List.nil_append] at h
      exact ⟨rfl, utf8_injective h⟩
    | some q => simp [hb, hc] at linked
  | some p =>
    cases hc : c.previous with
    | none => simp [hb, hc] at linked
    | some q =>
      simp only [hb, hc] at h
      obtain ⟨hp, ht⟩ := List.append_inj h (by simp)
      have bytes : p = q := by
        cases p; cases q
        simpa [Vector.toList_inj] using hp
      exact ⟨congrArg some bytes, utf8_injective ht⟩

end LedgerBlock

end AdaptivePopulation
