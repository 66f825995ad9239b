import ChartLowering.Proofs.Boxplot.Outliers
import ChartLowering.Proofs.Composite.Groups
import ChartLowering.Proofs.Number.Literal
import ChartLowering.Proofs.Settings.Environment

/-!
# The multiplier of a boxplot in its expressions

The extent of a boxplot is a number from the definition of its mark or from the settings, or it goes
by a name. Every filter and every calculation that bounds the whiskers has it in the same text. The
text is a literal unless the extent is no finite number, as a variable of the environment can say.
-/

namespace ChartLowering

/-- The expression of a step that has one. -/
def Transform.expression? : Transform → Option String
  | calculate expr _ | filter expr => some expr
  | given _ | bin _ | timeUnit _ | aggregate _ _ | joinAggregate _ _ => none

namespace Boxplot

open Expression

/-- Limits with `kk` for the multiplier, between columns of these names. -/
def fence (kk q1 q3 column : String) : Plan.Limits where
  lower := datum q1 ++ " - " ++ kk ++ " * " ++ ("(" ++ datum q3 ++ " - " ++ datum q1 ++ ")")
  upper := datum q3 ++ " + " ++ kk ++ " * " ++ ("(" ++ datum q3 ++ " - " ++ datum q1 ++ ")")
  value := datum column

/-- The upper end of whiskers that stay within the data. -/
def upperEnd (kk q3 range greatest : String) : String :=
  "min(" ++ datum q3 ++ " + " ++ datum range ++ " * " ++ kk ++ ", " ++ datum greatest ++ ")"

def lowerEnd (kk q1 range least : String) : String :=
  "max(" ++ datum q1 ++ " - " ++ datum range ++ " * " ++ kk ++ ", " ++ datum least ++ ")"

/-- The expressions that bound whiskers, with `kk` wherever the multiplier stands. The distance of
the quartiles is without it. -/
inductive Bounds (kk : String) : String → Prop
  | outside (q1 q3 column : String) : Bounds kk (fence kk q1 q3 column).outside
  | inside (q1 q3 column : String) : Bounds kk (fence kk q1 q3 column).inside
  | upper (q3 range greatest : String) : Bounds kk (upperEnd kk q3 range greatest)
  | lower (q1 range least : String) : Bounds kk (lowerEnd kk q1 range least)
  | range (q1 q3 : String) : Bounds kk (datum q3 ++ " - " ++ datum q1)

/-- Is `kk` what an expansion with whiskers of this kind writes for the multiplier? -/
structure Multiplies (kk : String) (whiskers : Whiskers) (e : Expansion) : Prop where
  expressions : ∀ t ∈ e.allSteps, ∀ expr, t.expression? = some expr → Bounds kk expr
  filtered : whiskers = .tukey →
    ∃ q1 q3 column, .filter (fence kk q1 q3 column).inside ∈ e.allSteps
  computed : whiskers = .boundedIqr → ∃ q1 q3 range greatest least upper lower,
    .calculate (upperEnd kk q3 range greatest) upper ∈ e.allSteps ∧
      .calculate (lowerEnd kk q1 range least) lower ∈ e.allSteps

section Plans

variable {p : Plan} {l : Plan.Limits} {kk column : String} {steps : List Transform}
  {multiplier : Binary64}

theorem Plan.exists_datum_of_read {path s : String} (h : Plan.read path = .ok s) :
    ∃ name, s = datum name := by
  obtain ⟨name, -, hs⟩ := Plan.read_eq_ok_iff.1 h
  exact ⟨name, hs⟩

theorem exists_fence_of_limits (hk : Plan.multiplierText p.multiplier = .ok kk)
    (h : p.limits = .ok l) : ∃ q1 q3 column, l = fence kk q1 q3 column := by
  obtain ⟨lower, hlower, h⟩ := bind_eq_ok_iff.1 h
  obtain ⟨upper, hupper, h⟩ := bind_eq_ok_iff.1 h
  obtain ⟨k, hnumber, h⟩ := bind_eq_ok_iff.1 h
  obtain ⟨value, hvalue, h⟩ := bind_eq_ok_iff.1 h
  obtain rfl := Except.ok.inj (hnumber.symm.trans hk)
  obtain ⟨q1, rfl⟩ := Plan.exists_datum_of_read hlower
  obtain ⟨q3, rfl⟩ := Plan.exists_datum_of_read hupper
  obtain ⟨column, rfl⟩ := Plan.exists_datum_of_read hvalue
  exact ⟨q1, q3, column, (Except.ok.inj h).symm⟩

theorem exists_of_boundSteps (hk : Plan.multiplierText multiplier = .ok kk)
    (h : Plan.boundSteps multiplier column = .ok steps) :
    ∃ q1 q3 range greatest least distance upper lower, steps =
      [.calculate (datum q3 ++ " - " ++ datum q1) distance,
       .calculate (upperEnd kk q3 range greatest) upper,
       .calculate (lowerEnd kk q1 range least) lower] := by
  obtain ⟨lower, hlower, h⟩ := bind_eq_ok_iff.1 h
  obtain ⟨upper, hupper, h⟩ := bind_eq_ok_iff.1 h
  obtain ⟨range, hrange, h⟩ := bind_eq_ok_iff.1 h
  obtain ⟨k, hnumber, h⟩ := bind_eq_ok_iff.1 h
  obtain ⟨greatest, hgreatest, h⟩ := bind_eq_ok_iff.1 h
  obtain ⟨least, hleast, h⟩ := bind_eq_ok_iff.1 h
  obtain rfl := Except.ok.inj (hnumber.symm.trans hk)
  obtain ⟨q1, rfl⟩ := Plan.exists_datum_of_read hlower
  obtain ⟨q3, rfl⟩ := Plan.exists_datum_of_read hupper
  obtain ⟨range, rfl⟩ := Plan.exists_datum_of_read hrange
  obtain ⟨greatest, rfl⟩ := Plan.exists_datum_of_read hgreatest
  obtain ⟨least, rfl⟩ := Plan.exists_datum_of_read hleast
  exact ⟨q1, q3, range, greatest, least, _, _, _, (Except.ok.inj h).symm⟩

theorem expression?_of_mem_prepared {e : Extraction} {t : Transform} (h : t ∈ e.prepared) :
    t.expression? = none := by
  rw [Extraction.prepared, List.mem_append, List.mem_map, List.mem_map] at h
  obtain ⟨b, -, rfl⟩ | ⟨u, -, rfl⟩ := h <;> rfl

end Plans

section Steps

variable {outer : Record Value} {look : Look} {e : Expansion} {kk : String} {limits : Plan.Limits}
  {layer : UnitLayer} {t : Transform} {expr : String}

theorem transforms_of_mem_points (hlimits : look.plan.limits = .ok limits)
    (h : layer ∈ look.points) : layer.transforms = [.filter limits.outside] := by
  obtain ⟨-, limits', outliers, hlimits', houtliers, h⟩ := Look.exists_outliers_of_mem_points h
  obtain rfl := Except.ok.inj (hlimits.symm.trans hlimits')
  obtain ⟨base, hbase, rfl⟩ := Look.exists_of_outliers houtliers
  obtain ⟨-, rfl⟩ := Part.mem_layers_iff.1 h
  exact hbase

variable (hplan : look.plan.Made) (hk : Plan.multiplierText look.plan.multiplier = .ok kk)

include hplan hk

theorem bounds_cases : look.plan.whiskers ≠ .boundedIqr ∧ look.plan.bounds = [] ∨
    look.plan.whiskers = .boundedIqr ∧ ∃ q1 q3 range greatest least distance upper lower,
      look.plan.bounds =
        [.calculate (datum q3 ++ " - " ++ datum q1) distance,
         .calculate (upperEnd kk q3 range greatest) upper,
         .calculate (lowerEnd kk q1 range least) lower] := by
  have hbounds := hplan.bounds
  split at hbounds
  · rename_i hbounded
    exact .inr ⟨hbounded, exists_of_boundSteps hk hbounds⟩
  · rename_i hbounded
    exact .inl ⟨hbounded, (Except.ok.inj hbounds).symm⟩

theorem bounds_of_mem_statistics (ht : t ∈ look.plan.statistics)
    (hexpr : t.expression? = some expr) : Bounds kk expr := by
  rw [Plan.statistics, List.mem_append, List.mem_cons] at ht
  obtain ht | rfl | ht := ht
  · rw [expression?_of_mem_prepared ht] at hexpr
    cases hexpr
  · cases hexpr
  · obtain ⟨-, hnone⟩ | ⟨-, q1, q3, range, greatest, least, distance, upper, lower, hsteps⟩ :=
      bounds_cases hplan hk
    · rw [hnone] at ht
      cases ht
    · rw [hsteps] at ht
      simp only [List.mem_cons, List.not_mem_nil, or_false] at ht
      obtain rfl | rfl | rfl := ht <;> obtain rfl := Option.some.inj hexpr
      · exact .range q1 q3
      · exact .upper q3 range greatest
      · exact .lower q1 range least

/-- Whatever whiskers it has, a boxplot writes its multiplier in the same way everywhere. -/
theorem multiplies_of_draw (h : draw outer look = .ok e) :
    Multiplies kk look.plan.whiskers e := by
  obtain ⟨htukey, limits, hlimits, hall⟩ | ⟨htukey, written, hwritten, hall⟩ := allSteps_of_draw h
  · obtain ⟨q1, q3, column, rfl⟩ := exists_fence_of_limits hk hlimits
    refine ⟨fun t ht expr hexpr ↦ ?_, fun _ ↦ ⟨q1, q3, column, ?_⟩, fun hbounded ↦ ?_⟩
    · simp only [hall, Plan.quartilesOnRows, Plan.whiskerSteps, List.mem_append, List.mem_flatMap,
        List.mem_cons, List.not_mem_nil, or_false] at ht
      obtain ((ht | rfl) | ⟨layer, hlayer, ht⟩ | rfl | rfl) | ht := ht
      · rw [expression?_of_mem_prepared ht] at hexpr
        cases hexpr
      · cases hexpr
      · rw [transforms_of_mem_points hlimits hlayer] at ht
        obtain rfl := List.mem_singleton.1 ht
        obtain rfl := Option.some.inj hexpr
        exact .outside q1 q3 column
      · obtain rfl := Option.some.inj hexpr
        exact .inside q1 q3 column
      · cases hexpr
      · exact bounds_of_mem_statistics hplan hk ht hexpr
    · simp [hall, Plan.whiskerSteps]
    · rw [htukey] at hbounded
      cases hbounded
  · refine ⟨fun t ht expr hexpr ↦ ?_, fun h ↦ absurd h htukey, fun hbounded ↦ ?_⟩
    · rw [hall, List.mem_append] at ht
      obtain ht | ht := ht
      · obtain ⟨v, rfl⟩ := Expansion.exists_given_of_mem_written hwritten ht
        cases hexpr
      · exact bounds_of_mem_statistics hplan hk ht hexpr
    · obtain ⟨hnot, -⟩ | ⟨-, q1, q3, range, greatest, least, distance, upper, lower, hsteps⟩ :=
        bounds_cases hplan hk
      · exact absurd hbounded hnot
      · exact ⟨q1, q3, range, greatest, least, upper, lower,
          by simp [hall, Plan.statistics, hsteps], by simp [hall, Plan.statistics, hsteps]⟩

end Steps

section Extents

variable {spec : Record Value} {settings : Settings} {whiskers : Option Whiskers}
  {parse : Shorthand.Reader} {e : Expansion}
  {m extent : Value} {k : Binary64}

/-- A multiplier is finite unless the extent is no finite number. -/
theorem multiplierOf_isFinite_iff (h : multiplierOf extent = .ok k) :
    k.isFinite = true ↔ ∀ x, extent = .float x → x.isFinite = true := by
  by_cases hfloat : ∃ x, extent = .float x
  · obtain ⟨x, rfl⟩ := hfloat
    obtain rfl := Except.ok.inj h
    exact ⟨fun hx y hy ↦ Value.float.inj hy ▸ hx, fun hx ↦ hx _ rfl⟩
  · have hproper := multiplierOf_proper h fun x hx ↦ absurd ⟨x, hx⟩ hfloat
    exact iff_of_true (Binary64.isFinite_of_proper hproper) fun x hx ↦ absurd ⟨x, hx⟩ hfloat

/-- In all expressions of a boxplot the multiplier has the same text, which is a literal exactly if
the extent is not a number without a finite value. Such a number is written as a name. The
environment gives numbers of both kinds, as the doubles next to what its texts say. -/
theorem multiplier_literal_iff (h : (expand spec settings whiskers parse).outcome = .ok e)
    (hmark : spec.require "mark" = .ok m)
    (hdouble : ∀ x, extentOf (.ofValue m) settings = .float x → x.isFinite = true → x.Proper) :
    ∃ w k kk, whiskersFor whiskers (extentOf (.ofValue m) settings) = .ok w ∧
      multiplierOf (extentOf (.ofValue m) settings) = .ok k ∧ number (.float k) = .ok kk ∧
      Multiplies kk w e ∧
      (IsLiteral kk ↔ ∀ x, extentOf (.ofValue m) settings = .float x → x.isFinite = true) ∧
      (¬ IsLiteral kk → kk ∈ names) ∧
      ∀ environment start base s x, Settings.ofEnvironment environment start base = .ok settings →
        Settings.valueIn? environment (start ++ "BOXPLOT_EXTENT") = some s →
        Binary64.ofText? s = some x → (MarkDef.ofValue m).value "extent" = .null →
          extentOf (.ofValue m) settings = .float x ∧ (x.isFinite = true → x.Proper) := by
  obtain ⟨encoding, m', look, -, hm', hat, hdraw⟩ := exists_lookAt_of_expand h
  obtain rfl := Except.ok.inj (hmark.symm.trans hm')
  have hmade := made_of_lookAt hat
  obtain ⟨hwhiskers, hmultiplier⟩ := given_of_lookAt hat
  have hfinite := multiplierOf_isFinite_iff hmultiplier
  have hproper (hk : look.plan.multiplier.isFinite = true) : look.plan.multiplier.Proper :=
    multiplierOf_proper hmultiplier fun x hx ↦ hdouble x hx (hfinite.1 hk x hx)
  obtain ⟨kk, hkk, hliteral, hname⟩ := exists_number_float hproper
  refine ⟨_, _, kk, hwhiskers, hmultiplier, hkk, multiplies_of_draw hmade.plan hkk hdraw,
    hliteral.trans hfinite, fun hnot ↦ ?_, ?_⟩
  · cases hk : look.plan.multiplier.isFinite with
    | true => exact absurd (hliteral.2 hk) hnot
    | false => exact hname hk
  · intro environment start base s x henvironment hs hx hnull
    rw [extentOf, hnull, Settings.extent_of_ofEnvironment henvironment hs hx]
    exact ⟨rfl, Binary64.proper_of_ofText? hx⟩

end Extents

/-- A boxplot of one column, whose extent is left to the settings. -/
def plainBoxplot : Record Value :=
  [("mark", .text "boxplot"), ("encoding", .object [("y", .text "v:Q")])]

/-- The settings that a text for the extent of boxplots gives, and the boxplot under them. -/
def underExtent (s : String) : Except Fault (Settings × Expansion) := do
  let settings ← Settings.ofEnvironment [("CHARTC_BOXPLOT_EXTENT", s)] "CHARTC_" {}
  let e ← (expand plainBoxplot settings).outcome
  pure (settings, e)

theorem exists_of_underExtent {s : String} {found : Settings × Expansion}
    (h : underExtent s = .ok found) :
    Settings.ofEnvironment [("CHARTC_BOXPLOT_EXTENT", s)] "CHARTC_" {} = .ok found.1 ∧
      (expand plainBoxplot found.1).outcome = .ok found.2 := by
  obtain ⟨settings, hsettings, h⟩ := bind_eq_ok_iff.1 h
  obtain ⟨e, he, h⟩ := bind_eq_ok_iff.1 h
  obtain rfl := Except.ok.inj h
  exact ⟨hsettings, he⟩

/-- The tenth, as a text may spell it, is written as `0.1` everywhere. -/
theorem multiplier_literal_iff_spelledTenth :
    ∃ settings e, underExtent " 1_0e-2 " = .ok (settings, e) ∧
      Multiplies "0.1" .tukey e ∧ IsLiteral "0.1" := by
  obtain ⟨⟨settings, e⟩, hfound⟩ : ∃ found, underExtent " 1_0e-2 " = .ok found := by
    have hrun : (do
        let _ ← underExtent " 1_0e-2 "
        pure ()) = .ok () := by decide +kernel
    obtain ⟨found, hfound, -⟩ := bind_eq_ok_iff.1 hrun
    exact ⟨found, hfound⟩
  obtain ⟨hsettings, he⟩ := exists_of_underExtent hfound
  have htenth : Binary64.ofText? " 1_0e-2 " =
      some (.finite false 7205759403792794 (-56)) := by decide +kernel
  have htext : number (.float (.finite false 7205759403792794 (-56))) = .ok "0.1" := by
    decide +kernel
  have hextent : extentOf (.ofValue (.text "boxplot")) settings =
      .float (.finite false 7205759403792794 (-56)) :=
    congrArg BoxplotExtent.toValue (Settings.extent_of_ofEnvironment hsettings rfl htenth)
  obtain ⟨w, k, kk, hw, hk, hkk, hmultiplies, hliteral, -⟩ := multiplier_literal_iff he rfl
    fun x hx hfinite ↦ by
      rw [hextent] at hx
      exact Value.float.inj hx ▸ Binary64.proper_of_ofText? htenth rfl
  rw [hextent] at hw hk hliteral
  obtain rfl := Except.ok.inj hw
  obtain rfl := Except.ok.inj hk
  obtain rfl := Except.ok.inj (htext.symm.trans hkk)
  refine ⟨settings, e, hfound, hmultiplies, hliteral.2 fun x hx ↦ ?_⟩
  exact Value.float.inj hx ▸ rfl

/-- An infinite extent from the environment is written as a name. -/
theorem not_multiplier_literal_infiniteExtent :
    ∃ settings e, underExtent "inf" = .ok (settings, e) ∧
      .filter (fence "inf" "lower_box_v" "upper_box_v" "v").inside ∈ e.allSteps ∧
      ¬ IsLiteral "inf" := by
  have hrun : (do
      let (_, e) ← underExtent "inf"
      pure (e.allSteps.contains
        (.filter (fence "inf" "lower_box_v" "upper_box_v" "v").inside))) = .ok true := by
    decide +kernel
  obtain ⟨⟨settings, e⟩, he, hfilter⟩ := bind_eq_ok_iff.1 hrun
  refine ⟨settings, e, he, ?_, not_isLiteral_of_mem_names (by decide)⟩
  simpa using Except.ok.inj hfilter

end Boxplot

end ChartLowering
