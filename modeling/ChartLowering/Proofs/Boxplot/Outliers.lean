import ChartLowering.Proofs.Boxplot.Drawing
import ChartLowering.Proofs.Expression.Tokens
import ChartLowering.Proofs.FieldPath.Spelling

/-!
# Outliers and whiskers

The single rows of a boxplot are parted by two filters. Read as expressions, they say which values
lie further than a multiple of the interquartile range beyond the quartiles, and which do not.
-/

namespace ChartLowering.Boxplot

open Expression

/-- Does a value lie further than a multiple of the interquartile range beyond the quartiles? -/
def IsOutlier (multiplier q1 q3 value : ℚ) : Prop :=
  value < q1 - multiplier * (q3 - q1) ∨ q3 + multiplier * (q3 - q1) < value

instance (multiplier q1 q3 value : ℚ) : Decidable (IsOutlier multiplier q1 q3 value) :=
  inferInstanceAs (Decidable (_ ∨ _))

/-- What the limits of a boxplot are spelled with: the columns of the quartiles and of the value,
and how many times the interquartile range the whiskers may reach. -/
structure Fences where
  q1 : String
  q3 : String
  value : String
  negative : Bool
  multiplier : Decimal

namespace Fences

variable (f : Fences)

def reach : Tree := .binary .times (signedTree f.negative f.multiplier)
  (.binary .minus (.column f.q3) (.column f.q1))

def lower : Tree := .binary .minus (.column f.q1) f.reach

def upper : Tree := .binary .plus (.column f.q3) f.reach

def outside : Tree := .binary .or (.binary .less (.column f.value) f.lower)
  (.binary .greater (.column f.value) f.upper)

def inside : Tree := .binary .and (.binary .atMost f.lower (.column f.value))
  (.binary .atMost (.column f.value) f.upper)

/-- The texts of the limits spell the trees of the fences. -/
structure SpelledBy (l : Plan.Limits) : Prop where
  lower : Spells 4 l.lower f.lower
  upper : Spells 4 l.upper f.upper
  value : l.value = access f.value "datum"

section Evaluation

variable (reading : Reading) (row : String → ℚ)

def isBeyond : Bool := decide
  (IsOutlier (reading.signed f.negative f.multiplier) (row f.q1) (row f.q3) (row f.value))

theorem number?_signedTree (negative : Bool) (d : Decimal) :
    (signedTree negative d).number? reading row = some (reading.signed negative d) := by
  cases negative <;> rfl

theorem number?_reach : f.reach.number? reading row =
    some (reading.signed f.negative f.multiplier * (row f.q3 - row f.q1)) := by
  simp [reach, Tree.number?, number?_signedTree]

theorem number?_lower : f.lower.number? reading row =
    some (row f.q1 - reading.signed f.negative f.multiplier * (row f.q3 - row f.q1)) := by
  simp [lower, Tree.number?, number?_reach]

theorem number?_upper : f.upper.number? reading row =
    some (row f.q3 + reading.signed f.negative f.multiplier * (row f.q3 - row f.q1)) := by
  simp [upper, Tree.number?, number?_reach]

theorem isBeyond_eq : f.isBeyond reading row =
    (decide (row f.value <
      row f.q1 - reading.signed f.negative f.multiplier * (row f.q3 - row f.q1)) ||
    decide (row f.q3 + reading.signed f.negative f.multiplier * (row f.q3 - row f.q1) <
      row f.value)) := Bool.decide_or _ _

theorem holds?_outside : f.outside.holds? reading row = some (f.isBeyond reading row) := by
  rw [isBeyond_eq]
  simp only [outside, Tree.holds?, Tree.number?, number?_lower, number?_upper, Option.bind_some,
    Option.map_some]

/-- The whiskers take what the outliers leave, as their comparisons are the negated ones. -/
theorem holds?_inside : f.inside.holds? reading row = some (!f.isBeyond reading row) := by
  rw [isBeyond_eq, Bool.not_or, ← decide_not, ← decide_not]
  simp only [inside, Tree.holds?, Tree.number?, number?_lower, number?_upper, Option.bind_some,
    Option.map_some, not_lt]

end Evaluation

section Reading

variable {f} {l : Plan.Limits}

theorem SpelledBy.column {level : ℕ} (h : f.SpelledBy l) :
    Spells level l.value (.column f.value) := h.value ▸ spells_column f.value

theorem SpelledBy.read?_outside (h : f.SpelledBy l) : read? l.outside = some f.outside := by
  have hless : Spells 1 (l.value ++ Operator.less.text ++ l.lower)
      (.binary .less (.column f.value) f.lower) :=
    .binary .less (by decide) h.column h.lower
  have hgreater : Spells 1 (l.value ++ Operator.greater.text ++ l.upper)
      (.binary .greater (.column f.value) f.upper) :=
    .binary .greater (by decide) h.column h.upper
  have hor : Spells 1 _ f.outside := .binary .or le_rfl hless.brackets hgreater.brackets
  have hbetween : ") || (" = ")" ++ (Operator.or.text ++ "(") := rfl
  have htext : "(" ++ (l.value ++ Operator.less.text ++ l.lower) ++ ")" ++ Operator.or.text ++
      ("(" ++ (l.value ++ Operator.greater.text ++ l.upper) ++ ")") = l.outside := by
    rw [Plan.Limits.outside, hbetween]
    simp only [Operator.text, String.append_assoc]
  exact htext ▸ hor.read?_eq

theorem SpelledBy.read?_inside (h : f.SpelledBy l) : read? l.inside = some f.inside := by
  have hlower : Spells 1 (l.lower ++ Operator.atMost.text ++ l.value)
      (.binary .atMost f.lower (.column f.value)) :=
    .binary .atMost (by decide) (h.lower.mono (by decide)) h.column
  have hupper : Spells 1 (l.value ++ Operator.atMost.text ++ l.upper)
      (.binary .atMost (.column f.value) f.upper) :=
    .binary .atMost (by decide) h.column h.upper
  have hand : Spells 1 _ f.inside := .binary .and (by decide) hlower.brackets hupper.brackets
  have hbetween : ") && (" = ")" ++ (Operator.and.text ++ "(") := rfl
  have htext : "(" ++ (l.lower ++ Operator.atMost.text ++ l.value) ++ ")" ++ Operator.and.text ++
      ("(" ++ (l.value ++ Operator.atMost.text ++ l.upper) ++ ")") = l.inside := by
    rw [Plan.Limits.inside, hbetween]
    simp only [Operator.text, String.append_assoc]
  exact htext ▸ hand.read?_eq

theorem SpelledBy.passes? (h : f.SpelledBy l) (reading : Reading) (row : String → ℚ) :
    passes? reading row l.outside = some (f.isBeyond reading row) ∧
      passes? reading row l.inside = some (!f.isBeyond reading row) := by
  rw [Expression.passes?, Expression.passes?, h.read?_outside, h.read?_inside, Option.bind_some,
    Option.bind_some]
  exact ⟨f.holds?_outside reading row, f.holds?_inside reading row⟩

end Reading

end Fences

section Plans

variable {p : Plan} {l : Plan.Limits}

theorem Plan.read_eq_ok_iff {path s : String} :
    Plan.read path = .ok s ↔
      ∃ name, FieldPath.flatten path = .ok name ∧ s = access name "datum" := by
  rw [Plan.read, Expression.field, bind_eq_ok_iff]
  constructor
  · rintro ⟨name, hname, h⟩
    exact ⟨name, hname, (Except.ok.inj h).symm⟩
  · rintro ⟨name, hname, rfl⟩
    exact ⟨name, hname, rfl⟩

/-- The limits of a plan are spelled with columns that paths lead to, and with a number that rounds
to its multiplier. -/
theorem exists_fences_of_limits (hk : p.multiplier.Proper) (h : p.limits = .ok l) :
    ∃ f : Fences, f.SpelledBy l ∧
      FieldPath.flatten p.axis.field.shown = .ok f.value ∧
      FieldPath.flatten ("lower_box_" ++ p.axis.field.shown) = .ok f.q1 ∧
      FieldPath.flatten ("upper_box_" ++ p.axis.field.shown) = .ok f.q3 ∧
      Reading.nearest.signed f.negative f.multiplier = p.multiplier.value := by
  obtain ⟨lower, hlower, h⟩ := bind_eq_ok_iff.1 h
  obtain ⟨upper, hupper, h⟩ := bind_eq_ok_iff.1 h
  obtain ⟨k, hnumber, h⟩ := bind_eq_ok_iff.1 h
  obtain ⟨value, hvalue, h⟩ := bind_eq_ok_iff.1 h
  obtain rfl := Except.ok.inj h
  obtain ⟨q1, hq1, rfl⟩ := Plan.read_eq_ok_iff.1 hlower
  obtain ⟨q3, hq3, rfl⟩ := Plan.read_eq_ok_iff.1 hupper
  obtain ⟨column, hcolumn, rfl⟩ := Plan.read_eq_ok_iff.1 hvalue
  obtain ⟨negative, cs, d, htext, hnumeral, hsigned⟩ := exists_numeral hk
  obtain rfl := Except.ok.inj (hnumber.symm.trans htext)
  refine ⟨⟨q1, q3, column, negative, d⟩, ?_, hcolumn, hq1, hq3, hsigned⟩
  have hrange : Spells 6 ("(" ++ (access q3 "datum" ++ Operator.minus.text ++ access q1 "datum") ++
      ")") (.binary .minus (.column q3) (.column q1)) :=
    Spells.brackets (.binary .minus (by decide) (spells_column q3) (spells_column q1))
  have hreach : Spells 5 _ (.binary .times (signedTree negative d) _) :=
    hnumeral.spells negative .times le_rfl hrange
  constructor
  · have hminus : Spells 4 _ (Fences.lower ⟨q1, q3, column, negative, d⟩) :=
      .binary .minus le_rfl (spells_column q1) hreach
    convert hminus using 1
    simp only [Operator.text, String.append_assoc]
  · have hplus : Spells 4 _ (Fences.upper ⟨q1, q3, column, negative, d⟩) :=
      .binary .plus le_rfl (spells_column q3) hreach
    convert hplus using 1
    simp only [Operator.text, String.append_assoc]
  · rfl

end Plans

/-- The layers of an expansion that draw single rows: outliers from the rows that pass one filter
and whiskers from those that pass another, after measures of its group have been added to each. -/
def PartsRows (e : Expansion) (measures : List Measure) (groupby : List String)
    (outside inside : String) : Prop :=
  ∃ before mark encoding after whiskers body,
    e.drawing = .layers
      (.group (before ++ [.joinAggregate measures groupby])
        [.unit ⟨[.filter outside], mark, encoding⟩, .group (.filter inside :: after) whiskers] ::
      body)

section Drawing

variable {spec outer : Record Value} {encoding : Encoding} {mark : MarkDef} {settings : Settings}
  {whiskers : Option Whiskers} {parse : Shorthand.Reader} {look : Look} {e : Expansion}

theorem partsRows_of_draw (htukey : look.plan.whiskers = .tukey)
    (hdrawn : Part.isDrawn look.mark look.partSettings "outliers" = true)
    (h : draw outer look = .ok e) :
    ∃ limits, look.plan.limits = .ok limits ∧
      PartsRows e (Plan.quartiles look.plan.axis.field look.plan.column) look.plan.lifted.groupby
        limits.outside limits.inside := by
  rw [draw] at h
  dsimp only at h
  rw [if_pos htukey] at h
  obtain ⟨limits, hlimits, h⟩ := bind_eq_ok_iff.1 h
  obtain ⟨rows, hrows, h⟩ := bind_eq_ok_iff.1 h
  obtain rfl := Except.ok.inj h
  refine ⟨limits, hlimits, ?_⟩
  rw [rowLayer] at hrows
  obtain ⟨outliers, houtliers, hrows⟩ := bind_eq_ok_iff.1 hrows
  obtain ⟨position, -, houtliers⟩ := bind_eq_ok_iff.1 houtliers
  obtain rfl := Except.ok.inj houtliers
  rw [Part.layers_of_drawn hdrawn] at hrows
  obtain rfl := Except.ok.inj hrows
  exact ⟨_, _, _, _, _, _, rfl⟩

theorem multiplierOf_proper {extent : Value} {k : Binary64} (h : multiplierOf extent = .ok k)
    (hfinite : ∀ x, extent = .float x → x.Proper) : k.Proper := by
  have hdefault : Defaults.tukeyMultiplier.Proper := ⟨by decide, by decide, by decide, by decide⟩
  cases extent with
  | int i =>
      rw [multiplierOf] at h
      split at h
      · rename_i hint
        obtain rfl := Except.ok.inj h
        exact Binary64.ofInt?_proper hint
      · cases h
  | float x =>
      obtain rfl := Except.ok.inj h
      exact hfinite _ rfl
  | _ =>
      obtain rfl := Except.ok.inj h
      exact hdefault

/-- Of a field without characters of paths the quartiles are read where they are written. -/
theorem columns_of_unmarked {name column q1 q3 : String} (h : FieldPath.Unmarked name)
    (hcolumn : FieldPath.flatten name = .ok column)
    (hq1 : FieldPath.flatten ("lower_box_" ++ name) = .ok q1)
    (hq3 : FieldPath.flatten ("upper_box_" ++ name) = .ok q3) :
    column = name ∧ q1 = "lower_box_" ++ column ∧ q3 = "upper_box_" ++ column := by
  have hlower : FieldPath.Unmarked ("lower_box_" ++ name) := .append (by decide) h
  have hupper : FieldPath.Unmarked ("upper_box_" ++ name) := .append (by decide) h
  rw [FieldPath.flatten_of_unmarked h] at hcolumn
  rw [FieldPath.flatten_of_unmarked hlower] at hq1
  rw [FieldPath.flatten_of_unmarked hupper] at hq3
  obtain rfl := Except.ok.inj hcolumn
  exact ⟨rfl, (Except.ok.inj hq1).symm, (Except.ok.inj hq3).symm⟩

/-- Outliers and whiskers part the single rows. Every row, whatever numbers are in it, passes one
of their two filters and not the other: that of the outliers if its value lies further than the
multiple of the interquartile range beyond the quartiles. Numbers in the filters count as the
doubles that they are written for, or just as they are written. -/
theorem filters_part_rows {m : Value} (h : (expand spec settings whiskers parse).outcome = .ok e)
    (hmark : spec.require "mark" = .ok m)
    (htukey : whiskersFor whiskers (extentOf (.ofValue m) settings) = .ok .tukey)
    (hdrawn : Part.isDrawn (.ofValue m) (Settings.openBlock settings.boxplot.members) "outliers" =
      true)
    (hfinite : ∀ x, extentOf (.ofValue m) settings = .float x → x.Proper) :
    ∃ field column groupby outside inside,
      PartsRows e [⟨"q1", some field, "lower_box_" ++ column⟩,
          ⟨"q3", some field, "upper_box_" ++ column⟩] groupby outside inside ∧
      ∃ q1 q3 k negative d,
        FieldPath.flatten field.shown = .ok column ∧
        FieldPath.flatten ("lower_box_" ++ field.shown) = .ok q1 ∧
        FieldPath.flatten ("upper_box_" ++ field.shown) = .ok q3 ∧
        (∀ name, field = .text name → FieldPath.Unmarked name →
          column = name ∧ q1 = "lower_box_" ++ column ∧ q3 = "upper_box_" ++ column) ∧
        multiplierOf (extentOf (.ofValue m) settings) = .ok k ∧
        Reading.nearest.signed negative d = k.value ∧
        ∀ (reading : Reading) (row : String → ℚ),
          passes? reading row outside = some (decide
            (IsOutlier (reading.signed negative d) (row q1) (row q3) (row column))) ∧
          passes? reading row inside = some (!decide
            (IsOutlier (reading.signed negative d) (row q1) (row q3) (row column))) := by
  obtain ⟨encoding, m', look, -, hm', hat, hdraw⟩ := exists_lookAt_of_expand h
  obtain rfl := Except.ok.inj (hmark.symm.trans hm')
  obtain ⟨hlmark, hlsettings⟩ := mark_and_settings_of_lookAt hat
  obtain ⟨hwhiskers, hmultiplier⟩ := given_of_lookAt hat
  have hcolumn := (made_of_lookAt hat).plan.column
  have htukey' : look.plan.whiskers = .tukey := Except.ok.inj (hwhiskers.symm.trans htukey)
  have hon : Part.isDrawn look.mark look.partSettings "outliers" = true := by
    rw [hlmark, Look.partSettings, hlsettings]
    exact hdrawn
  obtain ⟨limits, hlimits, hparts⟩ := partsRows_of_draw htukey' hon hdraw
  obtain ⟨f, hspelled, hvalue, hq1, hq3, hsigned⟩ :=
    exists_fences_of_limits (multiplierOf_proper hmultiplier hfinite) hlimits
  have hsame : look.plan.column = f.value := Except.ok.inj (hcolumn.symm.trans hvalue)
  rw [hsame] at hparts
  refine ⟨_, _, _, _, _, hparts, f.q1, f.q3, _, f.negative, f.multiplier, hvalue, hq1, hq3, ?_,
    hmultiplier, hsigned, hspelled.passes?⟩
  intro name hname hunmarked
  rw [hname] at hvalue hq1 hq3
  exact columns_of_unmarked hunmarked hvalue hq1 hq3

/-- A boxplot whose whiskers end half an interquartile range inside its box. -/
def shortWhiskers : Record Value :=
  [("mark", .object
      [("type", .text "boxplot"), ("extent", .float (.finite true (2 ^ 52) (-53)))]),
   ("encoding", .object [("x", .text "g:N"), ("y", .text "v:Q")])]

/-- Are the quartiles of a field the first steps of an expansion, and the only ones? -/
def addsQuartiles (field : String) (groupby : List String) (e : Expansion) : Bool :=
  match e.drawing with
  | .layers (.group steps _ :: _) =>
      steps = [.joinAggregate [⟨"q1", some (.text field), "lower_box_" ++ field⟩,
        ⟨"q3", some (.text field), "upper_box_" ++ field⟩] groupby]
  | _ => false

theorem PartsRows.eq_of_addsQuartiles {field : Value} {column name : String}
    {groupby groupby' : List String} {outside inside : String}
    (h : PartsRows e [⟨"q1", some field, "lower_box_" ++ column⟩,
      ⟨"q3", some field, "upper_box_" ++ column⟩] groupby outside inside)
    (hadds : addsQuartiles name groupby' e = true) : field = .text name ∧ column = name := by
  obtain ⟨before, mark, encoding, after, whiskers, body, hdrawing⟩ := h
  rw [addsQuartiles, hdrawing] at hadds
  have hsteps := of_decide_eq_true hadds
  have hlast := (List.append_singleton_inj.1 (hsteps.trans (List.nil_append _).symm)).2
  simp only [List.cons.injEq, Transform.joinAggregate.injEq, Measure.mk.injEq,
    Option.some.injEq] at hlast
  obtain ⟨⟨⟨-, hfield, hcolumn⟩, -⟩, -⟩ := hlast
  exact ⟨hfield, (String.append_right_inj "lower_box_").1 hcolumn⟩

theorem filters_part_rows_shortWhiskers : ∃ e, (expand shortWhiskers).outcome = .ok e ∧
    ∃ groupby outside inside,
      PartsRows e [⟨"q1", some (.text "v"), "lower_box_v"⟩,
          ⟨"q3", some (.text "v"), "upper_box_v"⟩] groupby outside inside ∧
      ∀ row : String → ℚ,
        passes? .nearest row outside = some (decide
          (IsOutlier (-1 / 2) (row "lower_box_v") (row "upper_box_v") (row "v"))) ∧
        passes? .nearest row inside = some (!decide
          (IsOutlier (-1 / 2) (row "lower_box_v") (row "upper_box_v") (row "v"))) := by
  have hrun : (do pure (addsQuartiles "v" ["g"] (← (expand shortWhiskers).outcome))) =
      (.ok true : Except Fault Bool) := by decide +kernel
  obtain ⟨e, he, hadds⟩ := bind_eq_ok_iff.1 hrun
  have hfinite : ∀ x, extentOf (.ofValue (shortWhiskers.value "mark")) {} = .float x →
      x.Proper := by
    intro x hx
    obtain rfl : Binary64.finite true (2 ^ 52) (-53) = x := Value.float.inj hx
    exact ⟨by decide, by decide, by decide, by decide⟩
  obtain ⟨field, column, groupby, outside, inside, hparts, q1, q3, k, negative, d, -, -, -, hnames,
    hmultiplier, hsigned, hpasses⟩ := filters_part_rows he rfl rfl (by decide +kernel) hfinite
  obtain ⟨rfl, rfl⟩ := hparts.eq_of_addsQuartiles (Except.ok.inj hadds)
  obtain ⟨-, rfl, rfl⟩ := hnames "v" rfl (by decide)
  obtain rfl : Binary64.finite true (2 ^ 52) (-53) = k := Except.ok.inj hmultiplier
  have hhalf : Reading.nearest.signed negative d = -1 / 2 := by
    rw [hsigned, Binary64.value]
    norm_num
  refine ⟨e, he, groupby, outside, inside, hparts, fun row ↦ ?_⟩
  rw [← hhalf]
  exact hpasses .nearest row

end Drawing

end ChartLowering.Boxplot
