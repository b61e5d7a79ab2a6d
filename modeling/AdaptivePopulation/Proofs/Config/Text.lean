import AdaptivePopulation.Config.Json
import AdaptivePopulation.Proofs.Json.Records

/-!
# Configurations as text

A configuration is read from its own text.  Any fields may be left out of the text, in the sections
too: each of them then has its default, and the others stay what they were.
-/

namespace AdaptivePopulation

open Json Record

theorem legible_ofNat {n : Nat} (h : n < 2 ^ 64) : (Json.ofNat n).Legible :=
  .num ⟨by omega, by omega⟩

theorem map_ofNat_map_toNat (o : Option UInt64) : (o.map UInt64.toNat).map UInt64.ofNat = o := by
  cases o <;> simp

/-! ## Sections -/

namespace SpectralConfig

variable {c : SpectralConfig Float}

/-- The whole numbers fit sixty-four bits, and the doubles are finite. -/
structure IsLegible (c : SpectralConfig Float) : Prop where
  minSamples : c.minSamples < 2 ^ 64
  defaultValue : c.defaultValue.isFinite
  epsilon : c.epsilon.isFinite
  maxRotations : c.maxRotations < 2 ^ 64

theorem legible_toJson (hc : c.IsLegible) : c.toJson.Legible := by
  refine .obj ?_
  simp only [List.forall_mem_cons, List.not_mem_nil, false_imp_iff, implies_true, and_true]
  exact ⟨legible_ofNat hc.minSamples, .num hc.defaultValue, .num hc.epsilon,
    legible_ofNat hc.maxRotations⟩

theorem thinned_toJson (c : SpectralConfig Float) :
    Thinned (fun _ => false) c.toJson c.toJson.document := by
  refine thinned_self (by simp) ?_
  simp only [List.forall_mem_cons, List.not_mem_nil, false_imp_iff, implies_true, and_true]
  exact ⟨.plain nofun, .plain nofun, .plain nofun, .plain nofun⟩

/-- Defaults in the place of the fields that are left out. -/
def without (removed : List String → Bool) (c : SpectralConfig Float) : SpectralConfig Float :=
  let default : SpectralConfig Float := standard
  { minSamples := if removed ["min_samples"] then default.minSamples else c.minSamples
    defaultValue := if removed ["default_value"] then default.defaultValue else c.defaultValue
    epsilon := if removed ["epsilon"] then default.epsilon else c.epsilon
    maxRotations := if removed ["max_rotations"] then default.maxRotations else c.maxRotations }

theorem decode_thinned (hc : c.IsLegible) {removed : List String → Bool} {d : Document}
    (h : Thinned removed c.toJson d) (depth : Nat) :
    decode (depth + 1) d = some (c.without removed) := by
  obtain ⟨r, read, -, holds⟩ := read_thinned (by simp) h depth
  simp only [List.map_cons, List.map_nil] at read
  have minSamples := holds.word (by simp : ("min_samples", _) ∈ _) hc.minSamples
  have defaultValue := holds.float (by simp : ("default_value", _) ∈ _) hc.defaultValue
  have epsilon := holds.float (by simp : ("epsilon", _) ∈ _) hc.epsilon
  have maxRotations := holds.word (by simp : ("max_rotations", _) ∈ _) hc.maxRotations
  simp [decode, read, minSamples, defaultValue, epsilon, maxRotations, without]

end SpectralConfig

namespace LocalThresholds

variable {t : LocalThresholds Float}

/-- The doubles are finite. -/
structure IsLegible (t : LocalThresholds Float) : Prop where
  low : t.low.isFinite
  high : t.high.isFinite
  overload : ∀ x ∈ t.overload, x.isFinite
  deadZone : t.deadZone.isFinite
  minStateEntropy : t.minStateEntropy.isFinite

theorem legible_toJson (ht : t.IsLegible) : t.toJson.Legible := by
  have overload : (ofOption (t.overload.map .ofFloat)).Legible := by
    cases h : t.overload with
    | none => exact .null
    | some x => exact .num (ht.overload x h)
  refine .obj ?_
  simp only [List.forall_mem_cons, List.not_mem_nil, false_imp_iff, implies_true, and_true]
  exact ⟨.num ht.low, .num ht.high, overload, .num ht.deadZone, .num ht.minStateEntropy⟩

theorem thinned_toJson (t : LocalThresholds Float) :
    Thinned (fun _ => false) t.toJson t.toJson.document := by
  refine thinned_self (by simp) ?_
  simp only [List.forall_mem_cons, List.not_mem_nil, false_imp_iff, implies_true, and_true]
  exact ⟨.plain nofun, .plain nofun, thinned_ofOption .float t.overload, .plain nofun,
    .plain nofun⟩

/-- Defaults in the place of the fields that are left out. -/
def without (removed : List String → Bool) (t : LocalThresholds Float) : LocalThresholds Float :=
  let default : LocalThresholds Float := standard
  { low := if removed ["low"] then default.low else t.low
    high := if removed ["high"] then default.high else t.high
    overload := if removed ["overload"] then default.overload else t.overload
    deadZone := if removed ["dead_zone"] then default.deadZone else t.deadZone
    minStateEntropy :=
      if removed ["min_state_entropy"] then default.minStateEntropy else t.minStateEntropy }

theorem decode_thinned (ht : t.IsLegible) {removed : List String → Bool} {d : Document}
    (h : Thinned removed t.toJson d) (depth : Nat) :
    decode (depth + 1) d = some (t.without removed) := by
  obtain ⟨r, read, -, holds⟩ := read_thinned (by simp) h depth
  simp only [List.map_cons, List.map_nil] at read
  have low := holds.float (by simp : ("low", _) ∈ _) ht.low
  have high := holds.float (by simp : ("high", _) ∈ _) ht.high
  have overload := holds.optional (List.mem_of_getElem? (i := 2) rfl) Decoder.float fun x hx =>
    floatOf?_numeral (ht.overload x hx)
  have deadZone := holds.float (by simp : ("dead_zone", _) ∈ _) ht.deadZone
  have minStateEntropy := holds.float (by simp : ("min_state_entropy", _) ∈ _) ht.minStateEntropy
  simp [decode, read, low, high, overload, deadZone, minStateEntropy, without]

end LocalThresholds

namespace HysteresisConfig

variable {c : HysteresisConfig Float}

/-- The whole number fits sixty-four bits, and the doubles are finite. -/
structure IsLegible (c : HysteresisConfig Float) : Prop where
  target : c.target.isFinite
  hysteresis : c.hysteresis.isFinite
  smoothing : c.smoothing.isFinite
  minDwell : c.minDwell < 2 ^ 64

theorem legible_toJson (hc : c.IsLegible) : c.toJson.Legible := by
  refine .obj ?_
  simp only [List.forall_mem_cons, List.not_mem_nil, false_imp_iff, implies_true, and_true]
  exact ⟨.num hc.target, .num hc.hysteresis, .num hc.smoothing, legible_ofNat hc.minDwell⟩

theorem thinned_toJson (c : HysteresisConfig Float) :
    Thinned (fun _ => false) c.toJson c.toJson.document := by
  refine thinned_self (by simp) ?_
  simp only [List.forall_mem_cons, List.not_mem_nil, false_imp_iff, implies_true, and_true]
  exact ⟨.plain nofun, .plain nofun, .plain nofun, .plain nofun⟩

/-- Defaults in the place of the fields that are left out. -/
def without (removed : List String → Bool) (c : HysteresisConfig Float) : HysteresisConfig Float :=
  let default : HysteresisConfig Float := standard
  { target := if removed ["target"] then default.target else c.target
    hysteresis := if removed ["hysteresis"] then default.hysteresis else c.hysteresis
    smoothing := if removed ["smoothing"] then default.smoothing else c.smoothing
    minDwell := if removed ["min_dwell"] then default.minDwell else c.minDwell }

theorem decode_thinned (hc : c.IsLegible) {removed : List String → Bool} {d : Document}
    (h : Thinned removed c.toJson d) (depth : Nat) :
    decode (depth + 1) d = some (c.without removed) := by
  obtain ⟨r, read, -, holds⟩ := read_thinned (by simp) h depth
  simp only [List.map_cons, List.map_nil] at read
  have target := holds.float (by simp : ("target", _) ∈ _) hc.target
  have hysteresis := holds.float (by simp : ("hysteresis", _) ∈ _) hc.hysteresis
  have smoothing := holds.float (by simp : ("smoothing", _) ∈ _) hc.smoothing
  have minDwell := holds.word (by simp : ("min_dwell", _) ∈ _) hc.minDwell
  simp [decode, read, target, hysteresis, smoothing, minDwell, without]

end HysteresisConfig

/-! ## Configurations -/

namespace EngineConfig

variable {c : EngineConfig}

/-- The whole numbers fit sixty-four bits, and the doubles are finite. -/
structure IsLegible (c : EngineConfig) : Prop where
  nodeCount : c.nodeCount < 2 ^ 64
  stateDim : c.stateDim < 2 ^ 64
  historyCapacity : c.historyCapacity < 2 ^ 64
  dt : c.dt.isFinite
  analysisInterval : c.analysisInterval < 2 ^ 64
  reportInterval : c.reportInterval < 2 ^ 64
  coherenceWindowSeconds : -2 ^ 63 ≤ c.coherenceWindowSeconds ∧ c.coherenceWindowSeconds < 2 ^ 63
  spectral : c.spectral.IsLegible
  thresholds : c.thresholds.IsLegible
  hysteresis : c.hysteresis.IsLegible

theorem legible_toJson (hc : c.IsLegible) : c.toJson.Legible := by
  have seed : (ofOption (c.seed.map fun s => .ofNat s.toNat)).Legible := by
    cases c.seed with
    | none => exact .null
    | some s => exact legible_ofNat s.toNat_lt
  have window : (Json.num (.int c.coherenceWindowSeconds)).Legible :=
    .num ⟨hc.coherenceWindowSeconds.1, hc.coherenceWindowSeconds.2.trans (by decide)⟩
  refine .obj ?_
  simp only [List.forall_mem_cons, List.not_mem_nil, false_imp_iff, implies_true, and_true]
  exact ⟨legible_ofNat hc.nodeCount, legible_ofNat hc.stateDim, legible_ofNat hc.historyCapacity,
    .num hc.dt, legible_ofNat hc.analysisInterval, legible_ofNat hc.reportInterval, seed, window,
    c.spectral.legible_toJson hc.spectral, c.thresholds.legible_toJson hc.thresholds,
    c.hysteresis.legible_toJson hc.hysteresis⟩

/-- Defaults in the place of the fields that are left out, of the sections too. -/
def without (removed : List String → Bool) (c : EngineConfig) : EngineConfig where
  nodeCount := if removed ["node_count"] then standard.nodeCount else c.nodeCount
  stateDim := if removed ["state_dim"] then standard.stateDim else c.stateDim
  historyCapacity :=
    if removed ["history_capacity"] then standard.historyCapacity else c.historyCapacity
  dt := if removed ["dt"] then standard.dt else c.dt
  analysisInterval :=
    if removed ["analysis_interval"] then standard.analysisInterval else c.analysisInterval
  reportInterval :=
    if removed ["report_interval"] then standard.reportInterval else c.reportInterval
  seed := if removed ["seed"] then standard.seed else c.seed
  coherenceWindowSeconds :=
    if removed ["coherence_window_secs"] then standard.coherenceWindowSeconds
    else c.coherenceWindowSeconds
  spectral :=
    if removed ["spectral"] then standard.spectral
    else c.spectral.without fun path => removed ("spectral" :: path)
  thresholds :=
    if removed ["local"] then standard.thresholds
    else c.thresholds.without fun path => removed ("local" :: path)
  hysteresis :=
    if removed ["global"] then standard.hysteresis
    else c.hysteresis.without fun path => removed ("global" :: path)

theorem decode_thinned (hc : c.IsLegible) {removed : List String → Bool} {d : Document}
    (h : Thinned removed c.toJson d) (depth : Nat) :
    decode (depth + 2) d = some (c.without removed) := by
  obtain ⟨r, read, inner, holds⟩ := read_thinned (by simp) h (depth + 1)
  simp only [List.map_cons, List.map_nil] at read
  have nodeCount := holds.word (by simp : ("node_count", _) ∈ _) hc.nodeCount
  have stateDim := holds.word (by simp : ("state_dim", _) ∈ _) hc.stateDim
  have historyCapacity := holds.word (by simp : ("history_capacity", _) ∈ _) hc.historyCapacity
  have dt := holds.float (by simp : ("dt", _) ∈ _) hc.dt
  have analysisInterval := holds.word (by simp : ("analysis_interval", _) ∈ _) hc.analysisInterval
  have reportInterval := holds.word (by simp : ("report_interval", _) ∈ _) hc.reportInterval
  have seed : r.withDefault "seed" (Decoder.optional Decoder.word)
      (standard.seed.map UInt64.toNat) =
        some ((if removed ["seed"] then standard.seed else c.seed).map UInt64.toNat) := by
    rw [apply_ite (Option.map UInt64.toNat)]
    exact holds.optional (List.mem_of_getElem? (i := 6) rfl) Decoder.word
      (fun s _ => nat_ofNat (Nat.le_sub_one_of_lt s.toNat_lt) r.depth) _
  have window := holds.plain (List.mem_of_getElem? (i := 7) rfl) nofun Decoder.signedWord
    (signedWord_ofInt hc.coherenceWindowSeconds r.depth)
  have spectral := holds.withDefault (by simp : ("spectral", _) ∈ _) SpectralConfig.decode
    fun d hd => inner ▸ c.spectral.decode_thinned hc.spectral hd depth
  have thresholds := holds.withDefault (by simp : ("local", _) ∈ _) LocalThresholds.decode
    fun d hd => inner ▸ c.thresholds.decode_thinned hc.thresholds hd depth
  have hysteresis := holds.withDefault (by simp : ("global", _) ∈ _) HysteresisConfig.decode
    fun d hd => inner ▸ c.hysteresis.decode_thinned hc.hysteresis hd depth
  -- One field after another, in the order in which they are read: the seed comes first.
  refine Option.bind_eq_some_iff.2 ⟨r, read, ?_⟩
  refine Option.bind_eq_some_iff.2 ⟨_, seed, ?_⟩
  refine Option.bind_eq_some_iff.2 ⟨_, nodeCount _, ?_⟩
  refine Option.bind_eq_some_iff.2 ⟨_, stateDim _, ?_⟩
  refine Option.bind_eq_some_iff.2 ⟨_, historyCapacity _, ?_⟩
  refine Option.bind_eq_some_iff.2 ⟨_, dt _, ?_⟩
  refine Option.bind_eq_some_iff.2 ⟨_, analysisInterval _, ?_⟩
  refine Option.bind_eq_some_iff.2 ⟨_, reportInterval _, ?_⟩
  refine Option.bind_eq_some_iff.2 ⟨_, window _, ?_⟩
  refine Option.bind_eq_some_iff.2 ⟨_, spectral _, ?_⟩
  refine Option.bind_eq_some_iff.2 ⟨_, thresholds _, ?_⟩
  refine Option.bind_eq_some_iff.2 ⟨_, hysteresis _, ?_⟩
  rw [map_ofNat_map_toNat]
  rfl

theorem thinned_toJson (c : EngineConfig) :
    Thinned (fun _ => false) c.toJson c.toJson.document := by
  refine thinned_self (by simp) ?_
  simp only [List.forall_mem_cons, List.not_mem_nil, false_imp_iff, implies_true, and_true]
  exact ⟨.plain nofun, .plain nofun, .plain nofun, .plain nofun, .plain nofun, .plain nofun,
    thinned_ofOption (fun s : UInt64 => .int s.toNat) c.seed, .plain nofun,
    c.spectral.thinned_toJson, c.thresholds.thinned_toJson, c.hysteresis.thinned_toJson⟩

/-- A configuration is read from its own text.  Where fields are left out, of the configuration or
of a section, the others come in any order, and fields of other names stand among them, with any
values, the text is read as the configuration with defaults in the place of exactly the fields that
were left out, however it is spaced and its strings are escaped. -/
theorem omitted_fields_take_defaults (c : EngineConfig) (hc : c.IsLegible) :
    ofText? c.toText = some c ∧
      ∀ (removed : List String → Bool) (d : Document) (text : String),
        Thinned removed c.toJson d → TokensText d.tokens text.toList →
          ofText? text = some (c.without removed) := by
  have completed (removed : List String → Bool) (d : Document) (text : String)
      (thinned : Thinned removed c.toJson d) (written : TokensText d.tokens text.toList) :
      ofText? text = some (c.without removed) := by
    rw [ofText?, Json.read?, Document.read?_text written, Option.bind_some]
    exact decode_thinned hc thinned 125
  refine ⟨?_, completed⟩
  exact completed (fun _ => false) c.toJson.document c.toText (thinned_toJson c)
    (tokensText_toText (legible_toJson hc))

/-- The paths of all fields but four. -/
def allButFour (path : List String) : Bool :=
  path ∉ [["node_count"], ["seed"], ["spectral"], ["spectral", "max_rotations"]]

/-- Four fields of a configuration, one of them in a section, in another order than the written
one, and two unknown fields. -/
def sparse : Json :=
  .obj [("extra", .arr [.null, .obj [("node_count", .str "\"")]]),
    ("spectral", .obj [("unknown", .bool true), ("max_rotations", .ofNat 50)]),
    ("seed", .ofNat 42), ("node_count", .ofNat 7)]

/-- The configuration that the four fields are taken from. -/
def crowded : EngineConfig :=
  { standard with
    nodeCount := 7
    dt := 0.25
    seed := some 42
    spectral := { minSamples := 4, defaultValue := 0.5, epsilon := 0.001, maxRotations := 50 }
    thresholds := { low := 1.0, high := 1.5, overload := some 3.0, deadZone := 0.2,
                    minStateEntropy := 0.1 } }

theorem omitted_fields_take_defaults_sparse :
    crowded.IsLegible ∧ ofText? crowded.toText = some crowded ∧
      ofText? sparse.toText =
        some { standard with
          nodeCount := 7
          seed := some 42
          spectral := { SpectralConfig.standard with maxRotations := 50 } } := by
  have legible : crowded.IsLegible := by
    constructor <;> try decide +kernel
    all_goals constructor <;> decide +kernel
  have inner : Thinned (fun path => allButFour ("spectral" :: path)) crowded.spectral.toJson
      (document (.obj [("unknown", .bool true), ("max_rotations", .ofNat 50)])) := by
    refine thinned_document (by decide) (by decide +kernel) ?_
    simp only [List.forall_mem_cons, List.not_mem_nil, false_imp_iff, implies_true, and_true]
    exact ⟨fun known => absurd known (by decide),
      fun _ => ⟨_, List.mem_of_getElem? (i := 3) rfl, .plain nofun⟩⟩
  have thinned : Thinned allButFour crowded.toJson sparse.document := by
    refine thinned_document (by decide) (by decide +kernel) ?_
    simp only [List.forall_mem_cons, List.not_mem_nil, false_imp_iff, implies_true, and_true]
    exact ⟨fun known => absurd known (by decide),
      fun _ => ⟨_, List.mem_of_getElem? (i := 8) rfl, inner⟩,
      fun _ => ⟨_, List.mem_of_getElem? (i := 6) rfl, .plain nofun⟩,
      fun _ => ⟨_, List.mem_of_getElem? (i := 0) rfl, .plain nofun⟩⟩
  have written : sparse.Legible := by
    refine .obj ?_
    simp only [List.forall_mem_cons, List.not_mem_nil, false_imp_iff, implies_true, and_true]
    refine ⟨.arr ?_, .obj ?_, legible_ofNat (by decide), legible_ofNat (by decide)⟩
    · simpa using ⟨.null, .obj (List.forall_mem_singleton.2 (.str _))⟩
    · simpa using ⟨.bool true, legible_ofNat (by decide)⟩
  have completed := (omitted_fields_take_defaults crowded legible).2 _ _ _ thinned
    (tokensText_toText written)
  exact ⟨legible, (omitted_fields_take_defaults crowded legible).1, completed⟩

end EngineConfig

end AdaptivePopulation
