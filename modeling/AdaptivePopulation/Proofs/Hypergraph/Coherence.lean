import AdaptivePopulation.Proofs.Double.Sums
import AdaptivePopulation.Proofs.Handover
import AdaptivePopulation.Proofs.Hypergraph.Construction

/-!
# When the coherence of a graph is a number

The coherence of a graph is clamped, and clamping leaves an undefined value as it is.  It is
undefined where the mean over the nodes is, or where that mean and the dissipation are both
infinite.  Neither happens as long as the weights of the edges are of moderate size and the
intensities of the handovers are finite: sums of weights are finite then, however long they are.  A
mean of intensities may be infinite, but then the rate that it is multiplied with is positive,
unless the clock has been set back since the rate was taken.
-/

namespace AdaptivePopulation

open Double Decimal

/-! ## The hyperbolic tangent -/

/-- Doubles with the given function as their hyperbolic tangent. -/
def DoubleWith (_tanh : Float → Float) : Type := Float

instance (tanh : Float → Float) : Scalar (DoubleWith tanh) :=
  { (inferInstance : Scalar Float) with tanh := tanh }

/-- The value lies between minus one and one wherever the argument is defined. -/
def IsTangent (tanh : Float → Float) : Prop :=
  ∀ x, x.isNaN = false → -1.0 ≤ tanh x ∧ tanh x ≤ 1.0

theorem IsTangent.atMost {tanh : Float → Float} (h : IsTangent tanh) {x : Float}
    (hx : x.isNaN = false) : AtMost 1 (tanh x) := by
  obtain ⟨low, high⟩ := h x hx
  exact atMost_one low high

/-! ## Moderate doubles -/

theorem isDouble_limit : Decimal.IsDouble (2 ^ 52) 865 :=
  ⟨by decide, by decide, by decide, by decide, .inr le_rfl⟩

/-- A power of two above the moderate doubles, with a sign. -/
def limit (s : Float.Model.UnpackedFloat.Sign) : Float :=
  Decimal.signed s (2 ^ 52) 865 isDouble_limit.pos

theorem extended_limit (s : Float.Model.UnpackedFloat.Sign) :
    extended (limit s) = (s.apply 1 * 2 ^ (917 : ℤ) : ℝ) := by
  have unpacked : (limit s).toModel.unpack = .finite s (2 ^ 52) 865 isDouble_limit.pos :=
    Decimal.unpack_pack isDouble_limit s
  have power : ((2 ^ 52 : ℕ) : ℝ) * 2 ^ (865 : ℤ) = 2 ^ (917 : ℤ) := by
    rw [Nat.cast_pow, Nat.cast_ofNat, pow_mul_zpow]
    rfl
  rw [extended, unpacked, extendedOf_of_isFinite rfl, ← power]
  cases s <;> simp [Float.Model.UnpackedFloat.Sign.apply]

/-- Of moderate size. -/
def IsModerate (w : Float) : Prop := -1e276 ≤ w ∧ w ≤ 1e276

theorem IsModerate.atMost {w : Float} (h : IsModerate w) : AtMost (2 ^ (917 : ℤ)) w := by
  obtain ⟨low, high⟩ := h
  have top : 1e276 ≤ limit .positive := by decide +kernel
  have bottom : limit .negative ≤ -1e276 := by decide +kernel
  obtain ⟨-, defined, low⟩ := le_iff_extended.1 low
  replace low := (le_iff_extended.1 bottom).2.2.trans low
  have high := (le_iff_extended.1 high).2.2.trans (le_iff_extended.1 top).2.2
  rw [extended_limit] at low high
  have finite : w.isFinite := (isFinite_iff defined).2
    ⟨(high.trans_lt (EReal.coe_lt_top _)).ne, ((EReal.bot_lt_coe _).trans_le low).ne'⟩
  rw [extended_of_isFinite finite, EReal.coe_le_coe_iff] at low high
  exact ⟨finite, abs_le.2 ⟨by simpa [Float.Model.UnpackedFloat.Sign.apply] using low,
    by simpa [Float.Model.UnpackedFloat.Sign.apply] using high⟩⟩

/-! ## Activities -/

/-- A log of at most as many handovers as a word counts, all of finite intensity. -/
structure FiniteLog {tanh : Float → Float} (log : HandoverLog (DoubleWith tanh)) : Prop where
  short : log.events.length ≤ 2 ^ 64
  finite : ∀ h ∈ log.events, Float.isFinite h.intensity

/-- The number of seconds of the window. -/
theorem seconds_window : (Float.ofNat 60000 / 1000.0).isFinite = true ∧
    realOf (Float.ofNat 60000 / 1000.0) = 60 := by
  have value : (Float.ofNat 60000 / 1000.0).toModel.unpack =
      .finite .positive 8444249301319680 (-47) (by decide) := rfl
  refine ⟨congrArg Float.Model.UnpackedFloat.isFinite value, ?_⟩
  rw [realOf_eq, value, valueOf_positive]
  norm_num

/-- The rate is finite, and positive if there are handovers. -/
theorem rate_pos {n : ℕ} (hn : n ≤ 2 ^ 64) :
    (Float.ofNat n / (Float.ofNat 60000 / 1000.0)).isFinite ∧
      (n ≠ 0 → 0 < realOf (Float.ofNat n / (Float.ofNat 60000 / 1000.0))) := by
  obtain ⟨finite, seconds⟩ := seconds_window
  have count := atMost_ofNat hn
  have rate := div_of_isFinite count.finite finite (by rw [seconds]; norm_num)
  rw [seconds] at rate
  have small : |rounded (realOf (Float.ofNat n) / 60)| ≤ 2 ^ (64 : ℤ) := by
    have le : |realOf (Float.ofNat n) / 60| ≤ 2 ^ (64 : ℤ) := by
      rw [abs_div, abs_of_pos (by norm_num : (0 : ℝ) < 60)]
      exact (div_le_self (abs_nonneg _) (by norm_num)).trans count.le
    exact (abs_rounded_le le).trans (rounded_zpow (by decide)).le
  obtain ⟨finite, value⟩ := realOf_of_nearest rate (small.trans_lt (zpow_lt_bound (by decide)))
  refine ⟨finite, fun counted => ?_⟩
  have one := one_le_realOf count.finite (one_le_ofNat counted)
  rw [value]
  calc (0 : ℝ) < 2 ^ (-6 : ℤ) := zpow_pos_two _
    _ = rounded (2 ^ (-6 : ℤ)) := (rounded_zpow (by decide)).symm
    _ ≤ rounded (realOf (Float.ofNat n) / 60) := rounded_mono (by norm_num; linarith)

/-- A rate times an intensity that is infinite only if something was counted for the rate. -/
theorem isNaN_rate_mul {n : ℕ} {x : Float} (few : n ≤ 2 ^ 64) (defined : x.isNaN = false)
    (counted : ¬ x.isFinite → n ≠ 0) :
    (Float.ofNat n / (Float.ofNat 60000 / 1000.0) * x).isNaN = false := by
  obtain ⟨rate, pos⟩ := rate_pos few
  obtain small | ⟨s, infinite⟩ := isFinite_or_eq_infinity defined
  · exact (mul_of_isFinite rate small).1
  · have notFinite : x.isFinite = false :=
      congrArg Float.Model.UnpackedFloat.isFinite infinite
    have rated := pos (counted (Bool.eq_false_iff.1 notFinite))
    exact congrArg Float.Model.UnpackedFloat.isNaN (unpack_mul_of_infinity infinite rated).2

section

variable {tanh : Float → Float} {log : HandoverLog (DoubleWith tanh)} {clock : Clock} {id : NodeId}

theorem FiniteLog.length_eventsSince (h : FiniteLog log) (since : Instant) :
    (log.eventsSince since id).length ≤ 2 ^ 64 :=
  (List.length_filter_le _ _).trans h.short

theorem FiniteLog.isNaN_mean (h : FiniteLog log) (since : Instant) :
    Float.isNaN (Series.mean ((log.eventsSince since id).map Handover.intensity)) = false := by
  refine Double.isNaN_mean (List.forall_mem_map.2 fun e he => ?_) ?_
  · exact h.finite e (List.mem_of_mem_filter he)
  · exact (List.length_map _).trans_le (h.length_eventsSince since)

/-- The clock is not set back between the two queries about a node, or the intensities are moderate
and it does not matter. -/
def Tolerates (log : HandoverLog (DoubleWith tanh)) (clock : Clock) : Prop :=
  clock.Forward ∨ ∀ h ∈ log.events, IsModerate h.intensity

/-- An infinite mean comes with handovers that the rate has counted. -/
theorem Tolerates.counted (h : Tolerates log clock)
    (infinite : ¬ Float.isFinite (Series.mean ((log.eventsSince
      ((clock (.intensity id)).back (.ofSeconds 60)) id).map Handover.intensity))) :
    (log.eventsSince ((clock (.rate id)).back (.ofSeconds 60)) id).length ≠ 0 := by
  obtain forward | moderate := h
  · obtain ⟨later, whole⟩ := forward id
    have earlier := Instant.back_le_back (n := 60) later whole (by decide)
    have subset := log.eventsSince_subset earlier id
    have zero : Float.isFinite 0.0 := by decide
    intro uncounted
    rw [List.length_eq_zero_iff] at uncounted
    rw [uncounted, List.subset_nil] at subset
    rw [subset] at infinite
    exact infinite zero
  · refine absurd (AtMost.finite (atMost_mean (k := 917) (by decide) (by decide) ?_)) infinite
    exact List.forall_mem_map.2 fun e he => (moderate e (List.mem_of_mem_filter he)).atMost

theorem isNaN_activity (h : FiniteLog log) (tolerates : Tolerates log clock)
    {a : Activity (DoubleWith tanh)} (ha : log.activity clock (.ofSeconds 60) id = .ok a) :
    Float.isNaN (a.rate * a.intensity) = false := by
  have long : 1 ≤ (Duration.ofSeconds 60).millis := by decide
  by_cases begins : clock.BeginsInCalendar (.ofSeconds 60) id
  · rw [log.activity_eq begins long] at ha
    obtain rfl := Except.ok.inj ha
    exact isNaN_rate_mul (h.length_eventsSince _) (h.isNaN_mean _) tolerates.counted
  · rw [log.activity_eq_error begins long] at ha
    cases ha

/-- The coherence that goes with an activity according to a log is between minus one and one. -/
theorem atMost_activity (tangent : IsTangent tanh) (h : FiniteLog log)
    (tolerates : Tolerates log clock) {a : Activity (DoubleWith tanh)}
    (ha : log.activity clock (.ofSeconds 60) id = .ok a) : AtMost 1 a.coherence :=
  tangent.atMost (isNaN_activity h tolerates ha)

end

namespace Hypergraph

variable {tanh : Float → Float} {g g' : Hypergraph (DoubleWith tanh)}

/-! ## What all graphs have in common -/

/-- Dissipation and integration are not negative, and the window is a minute. -/
structure Steady (g : Hypergraph (DoubleWith tanh)) : Prop where
  dissipation : (0.0 : Float) ≤ g.dissipation
  integration : (0.0 : Float) ≤ g.integration
  window : g.window = .ofSeconds 60

theorem nonneg_positivePart (x : Float) : 0.0 ≤ Scalar.positivePart x := by
  unfold Scalar.positivePart
  split_ifs with pos
  · exact le_of_lt pos
  · exact inUnit_zero.least

theorem Steady.congr (h : g.Steady) (dissipation : g'.dissipation = g.dissipation)
    (integration : g'.integration = g.integration) (window : g'.window = g.window) : g'.Steady :=
  ⟨dissipation ▸ h.dissipation, integration ▸ h.integration, window.trans h.window⟩

theorem Steady.perform (h : g.Steady) (operation : GraphOperation (DoubleWith tanh)) :
    (g.perform operation).Steady := by
  cases operation with
  | addNode id attributes =>
    refine of_toOption_getD h fun g' ha => ?_
    obtain ⟨-, rfl⟩ := addNode_eq_ok.1 ha
    exact h.congr rfl rfl rfl
  | addEdge members weight metadata now =>
    refine of_toOption_getD h fun g' ha => ?_
    obtain ⟨-, rfl⟩ := addEdge_eq_ok.1 ha
    exact h.congr rfl rfl rfl
  | setNodeIntegration id phi => exact h.congr rfl rfl rfl
  | setDissipation dissipation => exact ⟨nonneg_positivePart dissipation, h.integration, h.window⟩
  | setIntegration phi => exact ⟨h.dissipation, nonneg_positivePart phi, h.window⟩
  | updateCoherence source clock =>
    cases source with
    | none => exact h.congr rfl rfl rfl
    | some source =>
      refine of_toOption_getD h fun g' hu => ?_
      obtain ⟨nodes, rfl, -⟩ := getElem?_updateCoherenceFrom hu
      exact h.congr rfl rfl rfl

theorem steady_empty (name : String) : (empty name : Hypergraph (DoubleWith tanh)).Steady :=
  ⟨inUnit_zero.least, inUnit_zero.least, rfl⟩

theorem steady_built (name : String) (operations : List (GraphOperation (DoubleWith tanh))) :
    (built name operations).Steady :=
  List.foldlRecOn operations Hypergraph.perform (steady_empty name) fun _ h operation _ =>
    h.perform operation

/-! ## Clamping -/

theorem inUnit_clamp {x : Float} (hx : x.isNaN = false) : InUnit (Scalar.clamp 0.0 1.0 x) := by
  unfold Scalar.clamp
  split_ifs with below above
  · exact inUnit_zero
  · exact inUnit_one
  · exact inUnit_iff.2 ⟨Double.le_of_not_lt hx inUnit_zero.defined below,
      Double.le_of_not_lt inUnit_one.defined hx above⟩

theorem isNaN_clamp {x : Float} : (Scalar.clamp 0.0 1.0 x).isNaN = true ↔ x.isNaN = true := by
  constructor
  · intro undefined
    by_contra hx
    have := (inUnit_clamp (Bool.eq_false_iff.2 hx)).defined
    rw [undefined] at this
    cases this
  · intro undefined
    have below : ¬ x < 0.0 := fun h => absurd undefined (Bool.eq_false_iff.1 (isNaN_of_lt h).1)
    have above : ¬ 1.0 < x := fun h => absurd undefined (Bool.eq_false_iff.1 (isNaN_of_lt h).2)
    rwa [Scalar.clamp, if_neg below, if_neg above]

theorem realOf_half_pos : 0 < realOf 0.5 := by
  have value : (0.5 : Float).toModel.unpack = .finite .positive (2 ^ 52) (-53) (by decide) := rfl
  rw [realOf_eq, value, valueOf_positive]
  positivity

/-- The penalty for dissipation is infinite exactly if dissipation is. -/
theorem penalty_spec {d : Float} (hd : 0.0 ≤ d) : (0.5 * d).isNaN = false ∧
    extended (0.5 * d) ≠ ⊥ ∧ (extended (0.5 * d) = ⊤ ↔ extended d = ⊤) := by
  obtain ⟨-, defined, nonneg⟩ := le_iff_extended.1 hd
  obtain finite | ⟨s, infinite⟩ := isFinite_or_eq_infinity defined
  · have half : AtMost 1 0.5 := atMost_one (by decide) (by decide)
    have small : AtMost |realOf d| d := ⟨finite, le_rfl⟩
    have penalty := (small.mul (abs_realOf_lt d) half).finite
    rw [extended_of_isFinite penalty, extended_of_isFinite finite]
    exact ⟨isNaN_of_isFinite penalty, EReal.coe_ne_bot _,
      iff_of_false (EReal.coe_ne_top _) (EReal.coe_ne_top _)⟩
  · have penalty := (unpack_mul_of_infinity infinite realOf_half_pos).2
    cases s with
    | negative =>
      have bot : extended d = ⊥ := congrArg extendedOf infinite
      rw [bot] at nonneg
      exact absurd nonneg (not_le.2 (EReal.bot_lt_coe 0))
    | positive =>
      rw [extended, extended, infinite, penalty]
      exact ⟨congrArg Float.Model.UnpackedFloat.isNaN penalty, top_ne_bot, Iff.rfl⟩

/-- The coherence of a graph before it is clamped. -/
def balance (tanh : Float → Float) (average dissipation integration : Float) : Float :=
  average - 0.5 * dissipation + 0.1 * tanh integration

theorem globalCoherence_eq (g : Hypergraph (DoubleWith tanh)) :
    g.globalCoherence =
      Scalar.clamp (0.0 : Float) 1.0
        (balance tanh g.averageCoherence g.dissipation g.integration) :=
  rfl

/-- The bonus for integration is finite, so only the mean and the penalty may be in conflict. -/
theorem isNaN_balance (tangent : IsTangent tanh) {average dissipation integration : Float}
    (hd : 0.0 ≤ dissipation) (hi : 0.0 ≤ integration) :
    (balance tanh average dissipation integration).isNaN = true ↔
      average.isNaN = true ∨ extended average = ⊤ ∧ extended dissipation = ⊤ := by
  obtain ⟨defined, notBot, top⟩ := penalty_spec hd
  have tenth : AtMost 1 0.1 := atMost_one (by decide) (by decide)
  have one : (1 : ℝ) < bound := by simpa using zpow_lt_bound (k := 0) (by decide)
  have bonus := ((tangent.atMost (isNaN_of_le hi).2).mul one tenth).finite
  rw [balance, isNaN_add_iff, isNaN_sub_iff, isNaN_of_isFinite bonus, extended_of_isFinite bonus,
    defined, top]
  simp [notBot]

/-! ## Moderate graphs -/

/-- Weights and coherences are so small that sums of any length are finite. -/
structure Moderate (g : Hypergraph (DoubleWith tanh)) : Prop where
  weights : ∀ e ∈ g.edges, AtMost (2 ^ (917 : ℤ)) e.weight
  coherences : ∀ (id : NodeId) (n : GraphNode (DoubleWith tanh)), g.nodes[id]? = some n →
    AtMost (2 ^ (970 : ℤ)) n.coherence

theorem moderate_empty (name : String) : (empty name : Hypergraph (DoubleWith tanh)).Moderate :=
  ⟨by simp [empty], by simp [empty]⟩

/-- The mean weight of a node's edges is small if their weights are. -/
theorem Moderate.plainCoherence (h : g.Moderate) (wellFormed : g.WellFormed) (id : NodeId) :
    AtMost (2 ^ (970 : ℤ)) (g.plainCoherence id) := by
  refine atMost_mean (k := 917) (by decide) (by decide) fun v hv => ?_
  obtain ⟨e, he, rfl⟩ := List.mem_map.1 hv
  exact h.weights e (wellFormed.mem_incidentEdges.1 he).1

/-- The mean over the nodes is finite. -/
theorem Moderate.averageCoherence (h : g.Moderate) :
    AtMost (2 ^ (1023 : ℤ)) g.averageCoherence := by
  refine atMost_mean (k := 970) (by decide) (by decide) fun v hv => ?_
  obtain ⟨⟨id, n⟩, hn, rfl⟩ := List.mem_map.1 hv
  exact h.coherences id n (Std.ExtTreeMap.mem_toList_iff_getElem?_eq_some.1 hn)

end Hypergraph

/-- Edges have weights of moderate size if they are accepted.  Coherence is derived from edges, or
from a log of finite intensities with a clock that the log tolerates. -/
def GraphOperation.Moderate {tanh : Float → Float} : GraphOperation (DoubleWith tanh) → Prop
  | .addEdge _ weight _ _ => Float.isFinite weight → IsModerate weight
  | .updateCoherence (some source) clock =>
    ∃ log, FiniteLog log ∧ Tolerates log clock ∧ source = log.activity
  | _ => True

namespace Hypergraph

variable {tanh : Float → Float} {g : Hypergraph (DoubleWith tanh)}

theorem Moderate.perform (h : g.Moderate) (wellFormed : g.WellFormed) (steady : g.Steady)
    (tangent : IsTangent tanh) {operation : GraphOperation (DoubleWith tanh)}
    (moderate : operation.Moderate) : (g.perform operation).Moderate := by
  cases operation with
  | addNode id attributes =>
    refine of_toOption_getD h fun g' ha => ?_
    obtain ⟨-, rfl⟩ := addNode_eq_ok.1 ha
    refine ⟨h.weights, fun a n hn => ?_⟩
    rw [Std.ExtTreeMap.getElem?_insert] at hn
    split_ifs at hn
    · cases hn
      exact (atMost_one (by decide) inUnit_one.greatest).mono (one_le_zpow₀ one_le_two (by decide))
    · exact h.coherences a n hn
  | addEdge members weight metadata now =>
    refine of_toOption_getD h fun g' ha => ?_
    obtain ⟨⟨-, -, finite⟩, rfl⟩ := addEdge_eq_ok.1 ha
    refine ⟨fun e he => ?_, h.coherences⟩
    rcases List.mem_append.1 he with he | he
    · exact h.weights e he
    · rw [List.mem_singleton.1 he]
      exact (moderate finite).atMost
  | setNodeIntegration id phi =>
    refine ⟨h.weights, fun a n hn => ?_⟩
    change (g.nodes.modify id _)[a]? = some n at hn
    rw [Std.ExtTreeMap.getElem?_modify] at hn
    split_ifs at hn
    · obtain ⟨m, hm, rfl⟩ := Option.map_eq_some_iff.1 hn
      exact h.coherences id m hm
    · exact h.coherences a n hn
  | setDissipation dissipation => exact ⟨h.weights, h.coherences⟩
  | setIntegration phi => exact ⟨h.weights, h.coherences⟩
  | updateCoherence source clock =>
    cases source with
    | none =>
      refine ⟨h.weights, fun a n hn => ?_⟩
      change (g.nodes.map _)[a]? = some n at hn
      rw [Std.ExtTreeMap.getElem?_map] at hn
      obtain ⟨m, hm, rfl⟩ := Option.map_eq_some_iff.1 hn
      exact h.plainCoherence wellFormed a
    | some source =>
      refine of_toOption_getD h fun g' hu => ?_
      obtain ⟨log, finite, tolerates, rfl⟩ := moderate
      obtain ⟨nodes, rfl, derived⟩ := getElem?_updateCoherenceFrom hu
      refine ⟨h.weights, fun a n hn => ?_⟩
      obtain ⟨-, absent⟩ | ⟨m, activity, -, ha, new⟩ := derived a
      · rw [absent] at hn
        cases hn
      · rw [new] at hn
        cases hn
        rw [steady.window] at ha
        exact (atMost_activity tangent finite tolerates ha).mono
          (one_le_zpow₀ one_le_two (by decide))

theorem moderate_built (tangent : IsTangent tanh) (name : String)
    {operations : List (GraphOperation (DoubleWith tanh))}
    (moderate : ∀ o ∈ operations, o.Moderate) : (built name operations).Moderate := by
  refine (List.foldlRecOn (motive := fun g => g.WellFormed ∧ g.Steady ∧ g.Moderate) operations
    Hypergraph.perform ⟨wellFormed_empty name, steady_empty name, moderate_empty name⟩ ?_).2.2
  rintro g ⟨wellFormed, steady, h⟩ o ho
  exact ⟨wellFormed_perform wellFormed o, steady.perform o,
    h.perform wellFormed steady tangent (moderate o ho)⟩

/-- The coherence of a graph, however it was built, is undefined exactly if the mean over its nodes
is or if that mean and the dissipation are infinite, and else lies between zero and one.  It is
never undefined if all accepted weights are moderate and all intensities finite, and the clock is
not set back between the two queries about a node or the intensities are moderate, too. -/
theorem coherence_is_a_number (tangent : IsTangent tanh) (name : String)
    (operations : List (GraphOperation (DoubleWith tanh))) :
    (Float.isNaN (built name operations).globalCoherence = true ↔
      Float.isNaN (built name operations).averageCoherence = true ∨
        extended (built name operations).averageCoherence = ⊤ ∧
          extended (built name operations).dissipation = ⊤) ∧
    (Float.isNaN (built name operations).globalCoherence = false →
      InUnit (built name operations).globalCoherence) ∧
    ((∀ o ∈ operations, o.Moderate) → InUnit (built name operations).globalCoherence) := by
  have steady := steady_built name operations
  have undefined : Float.isNaN (built name operations).globalCoherence = true ↔ _ :=
    isNaN_clamp.trans (isNaN_balance tangent steady.dissipation steady.integration)
  have unit (h : Float.isNaN (built name operations).globalCoherence = false) :
      InUnit (built name operations).globalCoherence := by
    rw [globalCoherence_eq] at h ⊢
    exact inUnit_clamp (Bool.eq_false_iff.2 fun hv => Bool.eq_false_iff.1 h (isNaN_clamp.2 hv))
  refine ⟨undefined, unit, fun moderate => unit (Bool.eq_false_iff.2 ?_)⟩
  have finite := (moderate_built tangent name moderate).averageCoherence.finite
  rw [Ne, undefined, isNaN_of_isFinite finite, extended_of_isFinite finite]
  simp

/-- The sign, which is the hyperbolic tangent where it is rounded to a whole number. -/
def step (x : Float) : Float := if 0.0 < x then 1.0 else if x < 0.0 then -1.0 else x

theorem isTangent_step : IsTangent step := by
  intro x defined
  unfold step
  split_ifs with pos neg
  · decide
  · decide
  · have low := Double.le_of_not_lt defined (by decide) neg
    have high := Double.le_of_not_lt (by decide) defined pos
    exact ⟨Double.le_trans (by decide) low, Double.le_trans high (by decide)⟩

theorem coherence_is_a_number_step :
    let log : HandoverLog (DoubleWith step) :=
      ⟨1, [⟨"a", "b", (2400.0 : Float), .creative, .epoch⟩]⟩
    let clock : Clock := fun | .rate _ => .epoch | _ => ⟨1, 0⟩
    let operations : List (GraphOperation (DoubleWith step)) :=
      [.addNode "a" .null, .addNode "b" .null, .addEdge ["a", "b"] (0.5 : Float) none .epoch,
        .updateCoherence none clock, .setIntegration (40.0 : Float),
        .updateCoherence (some log.activity) clock]
    IsTangent step ∧ (∀ o ∈ operations, o.Moderate) ∧
      InUnit (built "graph" operations).globalCoherence := by
  intro log clock operations
  have later : Instant.epoch ≤ ⟨1, 0⟩ ∧ Instant.epoch.nanos < 1000000000 := by decide
  have forward : clock.Forward := fun _ => later
  have finite : FiniteLog log := ⟨by decide, fun h hh => List.mem_singleton.1 hh ▸ by decide⟩
  have edge : IsModerate 0.5 := ⟨by decide +kernel, by decide +kernel⟩
  have moderate : ∀ o ∈ operations, o.Moderate := by
    intro o ho
    simp only [operations, List.mem_cons, List.not_mem_nil, or_false] at ho
    rcases ho with rfl | rfl | rfl | rfl | rfl | rfl
    case inr.inr.inl => exact fun _ => edge
    case inr.inr.inr.inr.inr => exact ⟨log, finite, .inl forward, rfl⟩
    all_goals trivial
  exact ⟨isTangent_step, moderate,
    (coherence_is_a_number isTangent_step "graph" operations).2.2 moderate⟩

/-- With a clock that is set back the rate may be zero and the mean intensity infinite. -/
example :
    let handover : Handover (DoubleWith step) := ⟨"a", "b", (1.7e308 : Float), .creative, .epoch⟩
    let log : HandoverLog (DoubleWith step) := ⟨2, [handover, handover]⟩
    let clock : Clock := fun | .rate _ => ⟨61, 0⟩ | _ => ⟨59, 0⟩
    let g := built "graph" [.addNode "a" .null, .updateCoherence (some log.activity) clock]
    Float.isNaN g.globalCoherence = true := by
  decide +kernel

/-- Sums of large weights of either sign become infinite, and their mean is undefined. -/
theorem opposite_infinities_meet :
    let edge (members : List NodeId) (weight : Float) : GraphOperation Float :=
      .addEdge members weight none .epoch
    let g := built "graph" [.addNode "a" .null, .addNode "b" .null, .addNode "c" .null,
      .addNode "d" .null, edge ["a", "b"] 1.7e308, edge ["a", "b"] 1.7e308,
      edge ["c", "d"] (-1.7e308), edge ["c", "d"] (-1.7e308), .updateCoherence none Instant.epoch]
    g.globalCoherence.isNaN = true := by
  decide +kernel

end Hypergraph

end AdaptivePopulation
