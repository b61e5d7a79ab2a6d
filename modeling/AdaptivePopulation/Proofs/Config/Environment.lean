import AdaptivePopulation.Config.Environment
import AdaptivePopulation.Proofs.Config.Validation
import AdaptivePopulation.Proofs.Fallible

/-!
# The environment and the builder

Variables that are set to readable values give the configuration that the builder makes of these
values, up to one field: the builder lowers the number of samples that an analysis waits for to the
capacity of the history, and the environment leaves it as it is.
-/

namespace AdaptivePopulation.EngineConfig

/-- Values for the settings that variables override, none where the default stays. -/
structure Overrides where
  nodes : Option Nat
  dim : Option Nat
  history : Option Nat
  dt : Option Float
  seed : Option UInt64
  report : Option Nat

/-- The builder's answer to the values that are given. -/
def Overrides.build (o : Overrides) : EngineConfig :=
  let c := o.nodes.elim standard standard.withNodes
  let c := o.dim.elim c c.withStateDim
  let c := o.history.elim c c.withHistory
  let c := o.dt.elim c c.withStep
  let c := o.seed.elim c c.withSeed
  o.report.elim c c.withReportInterval

/-! ## Variables -/

section

variable {τ : Type} {environment : String → Option String} {read : List Char → Option τ}
  {name : String}

/-- The variable is unset and there is no value, or it is set to a text that, without the blanks
around it, reads as the value. -/
inductive Gives (environment : String → Option String) (read : List Char → Option τ)
    (name : String) : Option τ → Prop
  | unset (h : environment name = none) : Gives environment read name none
  | set {text : String} {value : τ} (h : environment name = some text)
      (readable : read (Text.trim text.toList) = some value) :
      Gives environment read name (some value)

theorem readVariable_eq_ok {o : Option τ} :
    readVariable environment read name = .ok o ↔ Gives environment read name o := by
  unfold readVariable
  constructor
  · intro h
    split at h
    next unset =>
      obtain rfl := Except.ok.inj h
      exact .unset unset
    next text set =>
      split at h
      next value readable =>
        obtain rfl := Except.ok.inj h
        exact .set set readable
      next => cases h
  · rintro (unset | ⟨set, readable⟩)
    · rw [unset]
    · rw [set]
      dsimp only
      rw [readable]

theorem Gives.of_map {τ' : Type} {f : τ → τ'} {o : Option τ'}
    (h : Gives environment (fun text => (read text).map f) name o) :
    ∃ o', Gives environment read name o' ∧ o = o'.map f := by
  obtain unset | ⟨set, readable⟩ := h
  · exact ⟨none, .unset unset, rfl⟩
  · obtain ⟨v, hv, rfl⟩ := Option.map_eq_some_iff.1 readable
    exact ⟨some v, .set set hv, rfl⟩

end

/-- A word as it is read. -/
def readWord : List Char → Option Nat := Decimal.readNat? greatestWord

/-- The variables give the values. -/
structure Assigns (environment : String → Option String) (o : Overrides) : Prop where
  nodes : Gives environment readWord "ARKHE_NODE_COUNT" o.nodes
  dim : Gives environment readWord "ARKHE_STATE_DIM" o.dim
  history : Gives environment readWord "ARKHE_HISTORY" o.history
  dt : Gives environment Decimal.readFloat? "ARKHE_DT" o.dt
  seed : Gives environment (fun s => (readWord s).map UInt64.ofNat) "ARKHE_SEED" o.seed
  report : Gives environment readWord "ARKHE_REPORT_INTERVAL" o.report

variable {environment : String → Option String} {o : Overrides}

/-- The history is long enough for the samples that an analysis waits for by default. -/
def Overrides.Roomy (o : Overrides) : Prop :=
  ∀ capacity, o.history = some capacity → standard.spectral.minSamples ≤ capacity

theorem Overrides.spectral_build (o : Overrides) : o.build.spectral =
    { standard.spectral with
      minSamples := o.history.elim standard.spectral.minSamples
        (min standard.spectral.minSamples) } := by
  obtain ⟨_ | _, _ | _, _ | _, _ | _, _ | _, _ | _⟩ := o <;> rfl

theorem Overrides.historyCapacity_build (o : Overrides) :
    o.build.historyCapacity = o.history.getD standard.historyCapacity := by
  obtain ⟨_ | _, _ | _, _ | _, _ | _, _ | _, _ | _⟩ := o <;> rfl

/-- The environment answers as the builder does, apart from the samples. -/
theorem Assigns.ofEnvironment_eq (h : Assigns environment o) :
    ofEnvironment environment = .ok { o.build with spectral := standard.spectral } := by
  obtain ⟨word, seed, hword⟩ := h.seed.of_map
  have nodes := readVariable_eq_ok.2 h.nodes
  have dim := readVariable_eq_ok.2 h.dim
  have history := readVariable_eq_ok.2 h.history
  have dt := readVariable_eq_ok.2 h.dt
  have seed := readVariable_eq_ok.2 seed
  have report := readVariable_eq_ok.2 h.report
  unfold readWord at nodes dim history seed report
  simp only [ofEnvironment, nodes, dim, history, dt, seed, report, ok_bind]
  obtain ⟨_ | _, _ | _, _ | _, _ | _, _, _ | _⟩ := o <;> cases hword <;> cases word <;> rfl

theorem Overrides.spectral_build_eq (o : Overrides) :
    o.build.spectral = standard.spectral ↔ o.Roomy := by
  rw [spectral_build, Roomy]
  cases o.history with
  | none => exact ⟨fun _ => nofun, fun _ => rfl⟩
  | some capacity =>
    simp only [Option.elim_some, Option.some.injEq, forall_eq']
    exact ⟨fun h => min_eq_left_iff.1 (congrArg SpectralConfig.minSamples h),
      fun h => by rw [min_eq_left h]⟩

/-- The samples of a valid configuration with the default analysis fit its history. -/
theorem Overrides.roomy_of_valid (h : Valid { o.build with spectral := standard.spectral }) :
    o.Roomy := by
  intro capacity set
  have samples := h.samples
  dsimp only at samples
  rwa [historyCapacity_build, set] at samples

/-- A configuration from the environment is that of the builder exactly if the history is unset or
has room for the samples that an analysis waits for by default.  It is valid exactly if that of the
builder is and there is room. -/
theorem environment_agrees_with_builder (h : Assigns environment o) :
    ofEnvironment environment = .ok { o.build with spectral := standard.spectral } ∧
    (ofEnvironment environment = .ok o.build ↔ o.Roomy) ∧
    ∀ c, ofEnvironment environment = .ok c →
      (c.validate = .ok () ↔ o.build.validate = .ok () ∧ o.Roomy) := by
  have same : { o.build with spectral := standard.spectral } = o.build ↔ o.Roomy := by
    rw [← o.spectral_build_eq]
    exact ⟨fun h => (congrArg spectral h).symm, fun h => by rw [← h]⟩
  rw [h.ofEnvironment_eq]
  refine ⟨rfl, (Except.ok.injEq _ _).to_iff.trans same, ?_⟩
  rintro c ⟨⟩
  rw [validate_eq_ok, validate_eq_ok, violation?_eq_none, violation?_eq_none]
  constructor
  · intro valid
    have roomy := Overrides.roomy_of_valid valid
    rw [same.2 roomy] at valid
    exact ⟨valid, roomy⟩
  · rintro ⟨valid, roomy⟩
    rwa [same.2 roomy]

/-- The environment with these variables set. -/
def environmentOf (settings : List (String × String)) (name : String) : Option String :=
  settings.lookup name

theorem environment_agrees_with_builder_set :
    let environment := environmentOf
      [("ARKHE_NODE_COUNT", " 8"), ("ARKHE_HISTORY", "12\t"), ("ARKHE_DT", " 0.25\n"),
        ("ARKHE_SEED", "42")]
    let o : Overrides := ⟨some 8, none, some 12, some 0.25, some 42, none⟩
    Assigns environment o ∧ ofEnvironment environment = .ok o.build := by
  intro environment o
  have assigns : Assigns environment o :=
    ⟨.set rfl rfl, .unset rfl, .set rfl rfl, .set rfl rfl, .set rfl rfl, .unset rfl⟩
  refine ⟨assigns, (environment_agrees_with_builder assigns).2.1.2 ?_⟩
  rintro capacity ⟨⟩
  decide

/-- With a history of four snapshots the builder's configuration is valid and that from the
environment is not. -/
theorem short_history_is_unreachable :
    let environment := environmentOf [("ARKHE_HISTORY", "4")]
    let o : Overrides := ⟨none, none, some 4, none, none, none⟩
    Assigns environment o ∧ o.build.spectral.minSamples = 4 ∧ o.build.validate = .ok () ∧
      ∃ c, ofEnvironment environment = .ok c ∧ c.spectral.minSamples = 10 ∧
        c.validate = .error (.invalid .samplesExceedHistory) := by
  refine ⟨⟨.unset rfl, .unset rfl, .set rfl rfl, .unset rfl, .unset rfl, .unset rfl⟩, rfl, rfl,
    _, rfl, rfl, rfl⟩

end AdaptivePopulation.EngineConfig
