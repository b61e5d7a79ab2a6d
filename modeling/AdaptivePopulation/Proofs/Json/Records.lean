import AdaptivePopulation.Proofs.Json.Decoding

/-!
# Records with fields left out

A record is read from an object by the names of its fields.  Where some fields are left out, the
others stand in any order and further ones have names that the record does not know, what is read
has the fields that are there, and the defaults of those that are not.
-/

namespace AdaptivePopulation.Json

/-- A value with fields left out, which `removed` says by their paths: a field of an object inside
another one has the name of the outer field before its own.  The fields of an object that stay may
come in any order and have fields left out themselves; fields whose names the object did not have
may stand among them with any values. -/
inductive Thinned : (List String → Bool) → Json → Document → Prop where
  | plain {removed : List String → Bool} {j : Json} (h : ∀ fields, j ≠ .obj fields) :
    Thinned removed j j.document
  | obj {removed : List String → Bool} {fields : List (String × Json)}
    {docs : List (List Piece × Document)} {entries : List (String × Document)}
    (labels : List.Forall₂ Labels docs entries)
    (names : ((entries.map Prod.fst).filter (· ∈ fields.map Prod.fst)).Perm
      ((fields.map Prod.fst).filter fun name => !removed [name]))
    (values : ∀ f ∈ fields, ∀ e ∈ entries, e.1 = f.1 →
      Thinned (fun path => removed (f.1 :: path)) f.2 e.2) :
    Thinned removed (.obj fields) (.obj docs)

theorem Thinned.eq_document {removed : List String → Bool} {j : Json} {d : Document}
    (h : Thinned removed j d) (plain : ∀ fields, j ≠ .obj fields) : d = j.document := by
  cases h with
  | plain => rfl
  | @obj _ fields => exact absurd rfl (plain fields)

theorem thinned_ofOption {σ : Type} {removed : List String → Bool} (number : σ → Number)
    (o : Option σ) : Thinned removed (ofOption (o.map fun a => .num (number a)))
      (ofOption (o.map fun a => .num (number a))).document := by
  cases o <;> exact .plain nofun

/-- An object that is written with some fields of another one and with further ones. -/
theorem thinned_document {removed : List String → Bool} {fields left : List (String × Json)}
    (distinct : (fields.map Prod.fst).Nodup)
    (names : ((left.map Prod.fst).filter (· ∈ fields.map Prod.fst)).Perm
      ((fields.map Prod.fst).filter fun name => !removed [name]))
    (values : ∀ g ∈ left, g.1 ∈ fields.map Prod.fst → ∃ j, (g.1, j) ∈ fields ∧
      Thinned (fun path => removed (g.1 :: path)) j g.2.document) :
    Thinned removed (.obj fields) (document (.obj left)) := by
  refine .obj (labels_documents left) (by simpa [List.map_map, Function.comp_def] using names) ?_
  intro f hf e he name
  obtain ⟨g, hg, rfl⟩ := List.mem_map.1 he
  obtain ⟨j, hj, thinned⟩ := values g hg (name ▸ List.mem_map_of_mem hf)
  obtain rfl : f = (g.1, j) := List.inj_on_of_nodup_map distinct hf hj name.symm
  exact thinned

/-- An object nothing is left out of. -/
theorem thinned_self {fields : List (String × Json)} (distinct : (fields.map Prod.fst).Nodup)
    (values : ∀ f ∈ fields, Thinned (fun _ => false) f.2 f.2.document) :
    Thinned (fun _ => false) (.obj fields) (document (.obj fields)) := by
  refine thinned_document distinct ?_ fun g hg _ => ⟨g.2, hg, values g hg⟩
  have all : (fields.map Prod.fst).filter (· ∈ fields.map Prod.fst) = fields.map Prod.fst :=
    List.filter_eq_self.2 fun _ h => decide_eq_true h
  simp [all]

theorem lookup_of_mem {τ : Type} {entries : List (String × τ)}
    (distinct : (entries.map Prod.fst).Nodup) {e : String × τ} (he : e ∈ entries) :
    entries.lookup e.1 = some e.2 := by
  induction entries with
  | nil => cases he
  | cons first rest ih =>
    obtain ⟨new, distinct⟩ := List.nodup_cons.1 distinct
    obtain rfl | he := List.mem_cons.1 he
    · exact List.lookup_cons_self
    · have other : e.1 ≠ first.1 := fun h => new (h ▸ List.mem_map_of_mem he)
      rw [List.lookup_cons, beq_false_of_ne other, ih distinct he]

namespace Record

variable {removed : List String → Bool} {fields : List (String × Json)}

/-- The record has exactly those of some fields that are not left out. -/
structure Holds (r : Record) (removed : List String → Bool) (fields : List (String × Json)) :
    Prop where
  found : ∀ f ∈ fields, removed [f.1] = false →
    ∃ d, r.fields.lookup f.1 = some d ∧ Thinned (fun path => removed (f.1 :: path)) f.2 d
  missing : ∀ f ∈ fields, removed [f.1] → r.fields.lookup f.1 = none

/-- What is read of an object some of whose fields are left out. -/
theorem read_thinned (distinct : (fields.map Prod.fst).Nodup) {d : Document}
    (h : Thinned removed (.obj fields) d) (depth : Nat) :
    ∃ r : Record, read (fields.map Prod.fst) (depth + 1) d = some r ∧ r.depth = depth ∧
      r.Holds removed fields := by
  cases h with
  | plain h => exact absurd rfl (h fields)
  | @obj _ _ docs entries labels names values =>
    rw [List.filter_map] at names
    have foundDistinct : ((entries.filter (·.1 ∈ fields.map Prod.fst)).map Prod.fst).Nodup :=
      names.nodup_iff.2 (distinct.filter _)
    refine ⟨⟨_, false, depth⟩, by rw [read, known?_eq_some labels foundDistinct]; rfl, rfl, ?_, ?_⟩
    · intro f hf stays
      have there : f.1 ∈ (entries.filter (·.1 ∈ fields.map Prod.fst)).map Prod.fst :=
        names.mem_iff.2 (List.mem_filter.2 ⟨List.mem_map_of_mem hf, by rw [stays]; rfl⟩)
      obtain ⟨e, he, name⟩ := List.mem_map.1 there
      exact ⟨e.2, name ▸ lookup_of_mem foundDistinct he,
        values f hf e (List.mem_of_mem_filter he) name⟩
    · intro f _ left
      refine lookup_of_not_mem fun there => ?_
      have stays := (List.mem_filter.1 (names.mem_iff.1 there)).2
      rw [left] at stays
      cases stays

variable {τ : Type} {r : Record} {j : Json} {value : τ}

/-- A field that was left out has its default. -/
theorem Holds.withDefault (h : r.Holds removed fields) {name : String} (hf : (name, j) ∈ fields)
    (decoder : Decoder τ)
    (hv : ∀ d, Thinned (fun path => removed (name :: path)) j d → decoder r.depth d = some value)
    (default : τ) :
    r.withDefault name decoder default = some (if removed [name] then default else value) := by
  rw [Record.withDefault]
  split_ifs with left
  · rw [h.missing _ hf left]
  · obtain ⟨d, found, thinned⟩ := h.found _ hf (Bool.eq_false_of_not_eq_true left)
    rw [found]
    exact hv d thinned

/-- A field that is no object stands as it is written or is left out. -/
theorem Holds.plain (h : r.Holds removed fields) {name : String} (hf : (name, j) ∈ fields)
    (plain : ∀ fields, j ≠ .obj fields) (decoder : Decoder τ)
    (hv : decoder r.depth j.document = some value) (default : τ) :
    r.withDefault name decoder default = some (if removed [name] then default else value) :=
  h.withDefault hf decoder (fun _ thinned => thinned.eq_document plain ▸ hv) default

theorem Holds.word (h : r.Holds removed fields) {name : String} {n : Nat}
    (hf : (name, .ofNat n) ∈ fields) (hn : n < 2 ^ 64) (default : Nat) :
    r.withDefault name Decoder.word default = some (if removed [name] then default else n) :=
  h.plain hf nofun _ (nat_ofNat (Nat.le_sub_one_of_lt hn) r.depth) default

theorem Holds.float (h : r.Holds removed fields) {name : String} {x : Float}
    (hf : (name, .ofFloat x) ∈ fields) (hx : x.isFinite) (default : Float) :
    r.withDefault name Decoder.float default = some (if removed [name] then default else x) :=
  h.plain hf nofun _ (floatOf?_numeral hx) default

/-- A field whose number may be absent. -/
theorem Holds.optional {σ : Type} {o : Option σ} {number : σ → Number} {value : σ → τ}
    (h : r.Holds removed fields) {name : String}
    (hf : (name, ofOption (o.map fun a => .num (number a))) ∈ fields) (decoder : Decoder τ)
    (hv : ∀ a ∈ o, decoder r.depth (.num (number a).numeral) = some (value a))
    (default : Option τ) :
    r.withDefault name (Decoder.optional decoder) default =
      some (if removed [name] then default else o.map value) := by
  cases o with
  | none => exact h.plain hf nofun _ rfl default
  | some a =>
    refine h.plain hf nofun _ ?_ default
    exact congrArg (Option.map some) (hv a rfl)

end Record

end AdaptivePopulation.Json
