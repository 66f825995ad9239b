import ChartLowering.Proofs.Composite.Mirror

/-!
# Along the continuous column

A direction follows any continuous axis, that of a datum or of a count too. The axis along it has to
have a field once its aggregate is gone. Where one axis has a continuous column and the other is
continuous without a column, the direction may be that of the other, and there is no axis then.
-/

namespace ChartLowering

theorem Orientation.across_ne {orient : Orientation} (h : orient.IsKnown) :
    orient.across ≠ orient := by
  obtain rfl | rfl := h <;> nofun

namespace ContinuousAxis

/-- The axis along the direction of a specification. -/
def along (spec : Record Value) (mark : String) : Report ContinuousAxis := do
  let orient ← orientation spec mark
  ofSpec spec orient mark

/-- A field that is named and continuous: quantitative and not binned, or temporal. -/
def IsColumn : Value → Prop
  | .object members =>
      Record.has members "field" = true ∧
        (Record.value members "type" = .text FieldType.quantitative.name ∧
            (Record.value members "bin").truthy = false ∨
          Record.value members "type" = .text FieldType.temporal.name)
  | _ => False

/-- Does time favour the axis of a direction over the one across it? Without a reason, this is the
axis that goes upwards. -/
def Timely : Orientation → Value → Value → Prop
  | .vertical, own, other => isTime own = true → isTime other = true
  | _, own, other => isTime own = false ∧ isTime other = true

/-- Does the axis of a direction prevail over another continuous one across it, which has no
column? It does if the mark aggregates it and the other is not aggregated, or for the sake of time,
unless it is the other that the mark aggregates. -/
def Prevails (mark : String) (orient : Orientation) (own other : Value) : Prop :=
  aggregateOf own = .text mark ∧ aggregateOf other = .null ∨
    Timely orient own other ∧
      (aggregateOf other = .text mark →
        (aggregateOf own).truthy = true ∧ aggregateOf own ≠ .text mark)

instance : DecidablePred IsColumn
  | .object _ => inferInstanceAs (Decidable (_ ∧ _))
  | .null | .bool _ | .int _ | .float _ | .text _ | .list _ | .set _ | .fieldDef _ =>
      inferInstanceAs (Decidable False)

instance : (orient : Orientation) → (own other : Value) → Decidable (Timely orient own other)
  | .vertical, own, other => inferInstanceAs (Decidable (isTime own = true → isTime other = true))
  | .horizontal, _, _ | .other _, _, _ => inferInstanceAs (Decidable (_ ∧ _))

instance (mark : String) (orient : Orientation) (own other : Value) :
    Decidable (Prevails mark orient own other) := inferInstanceAs (Decidable (_ ∨ _))

variable {spec members : Record Value} {encoding : Encoding} {mark : String} {orient : Orientation}
  {v own other : Value}

theorem isColumn_iff (h : Record.has members "field" = true) :
    IsColumn (.object members) ↔ isContinuous (.object members) = true := by
  have hfield : ChannelDef.isFieldDef (.object members) = true := by
    rw [ChannelDef.isFieldDef, h, Bool.true_or]
  have hnames : FieldType.quantitative.name ≠ FieldType.temporal.name := by decide
  rw [IsColumn, isContinuous, if_pos hfield, isContinuousField]
  by_cases hq : Record.value members "type" = .text FieldType.quantitative.name
  · simp [h, hq, hnames]
  · simp [h, hq]

theorem isContinuous_of_isColumn (h : IsColumn v) : isContinuous v = true := by
  cases v with
  | object members => exact (isColumn_iff h.1).1 h
  | _ => cases h

/-- What is continuous without a column is an object without a field. -/
theorem exists_of_not_isColumn (h : isContinuous v = true) (hno : ¬ IsColumn v) :
    ∃ members, v = .object members ∧ Record.has members "field" = false := by
  cases v with
  | object members =>
      refine ⟨members, rfl, ?_⟩
      by_contra hfield
      exact hno ((isColumn_iff (by simpa using hfield)).2 h)
  | _ => cases h

/-- What is continuous without a column is a count or is not aggregated. -/
theorem aggregateOf_cases (h : isContinuous v = true) (hno : ¬ IsColumn v) :
    aggregateOf v = .null ∨ aggregateOf v = .text "count" := by
  obtain ⟨members, rfl, hfield⟩ := exists_of_not_isColumn h hno
  rw [aggregateOf, ChannelDef.isFieldDef, hfield, Bool.false_or]
  split
  · rename_i hcount
    exact .inr (beq_iff_eq.1 hcount)
  · exact .inl rfl

theorem ofSpec_of_value (h : spec.value "encoding" = .object encoding)
    (hvalue : encoding.value orient.channel = .object members) :
    (ofSpec spec orient mark).outcome =
      if Record.has members "field" then .ok ⟨orient.channel, members.erase "aggregate"⟩
      else .error (.spec (.noContinuousAxis (.text mark))) := by
  have hfield : (Record.erase members "aggregate").has "field" = Record.has members "field" := by
    rw [Record.has_eq_isSome, Record.get?_erase_of_ne _ (by decide), ← Record.has_eq_isSome]
  have hmembers : (withoutAggregate mark (.object members)).outcome =
      .ok (members.erase "aggregate") := by
    show Report.outcome (pure members >>= _) = _
    rw [pure_bind]
    dsimp only
    split <;> rfl
  rw [ofSpec, encodingOf_of_value h, Report.lift_ok, pure_bind, hvalue]
  dsimp only
  rw [Report.outcome_bind, hmembers]
  show Report.outcome (if _ then _ else _) = _
  rw [hfield]
  split <;> rfl

theorem along_of_ok (hencoding : spec.value "encoding" = .object encoding)
    (h : orientation spec mark = .ok orient)
    (hvalue : encoding.value orient.channel = .object members) :
    (along spec mark).outcome =
      if Record.has members "field" then .ok ⟨orient.channel, members.erase "aggregate"⟩
      else .error (.spec (.noContinuousAxis (.text mark))) := by
  rw [along, h, Report.lift_ok, pure_bind]
  exact ofSpec_of_value hencoding hvalue

/-- Between two continuous axes, one of them without a column, the direction is that of the column
exactly if it prevails. -/
theorem between_iff (h : aggregateOf other = .null ∨ aggregateOf other = .text "count") :
    (between mark other own = .ok .vertical ↔ Prevails mark .vertical own other) ∧
      (between mark own other = .ok .horizontal ↔ Prevails mark .horizontal own other) := by
  simp only [between, Prevails, Timely]
  -- What is not aggregated leaves it to the own aggregate and to time. A count does so too, unless
  -- the mark goes by that name and takes the count for its own aggregate.
  obtain hother | hother := h
  · have hnull : (Value.null == Value.text mark) = false := rfl
    have hplain : Value.null.truthy = false := rfl
    by_cases ha : aggregateOf own = .text mark <;> cases isTime own <;> cases isTime other <;>
      simp [hother, ha, hnull, hplain, pure, Except.pure]
  · have hcount : (Value.text "count").truthy = true := rfl
    by_cases hmark : "count" = mark
    · subst hmark
      by_cases ha : aggregateOf own = .text "count" <;> cases isTime own <;>
        cases isTime other <;> cases (aggregateOf own).truthy <;>
        simp [hother, hcount, ha, pure, Except.pure, throw, throwThe, MonadExceptOf.throw]
    · by_cases ha : aggregateOf own = .text mark <;> cases isTime own <;>
        cases isTime other <;> cases (aggregateOf own).truthy <;>
        simp [hother, hcount, hmark, ha, pure, Except.pure]

theorem between_cases (mark : String) (x y : Value) :
    between mark x y = .ok .vertical ∨ between mark x y = .ok .horizontal ∨
      between mark x y = .error (.spec (.bothAxesAggregated (.text mark))) := by
  unfold between
  dsimp only
  split_ifs
  · exact .inl rfl
  · exact .inr (.inl rfl)
  · exact .inr (.inr rfl)
  · exact .inr (.inl rfl)
  · exact .inl rfl

section Undirected

variable (hencoding : spec.value "encoding" = .object encoding)
  (hfree : (Value.ofOption ((spec.value "mark").member? "orient")).truthy = false)

include hencoding hfree

theorem orientation_of_undirected : orientation spec mark =
    match isContinuous (encoding.value "x"), isContinuous (encoding.value "y") with
    | true, true => between mark (encoding.value "x") (encoding.value "y")
    | true, false => .ok .horizontal
    | false, true => .ok .vertical
    | false, false => .error (.spec (.noContinuousAxis (.text mark))) := by
  rw [orientation_of_value hencoding]
  dsimp only
  rw [hfree]
  exact if_neg Bool.false_ne_true

theorem orientation_cases (mark : String) (horient : orient.IsKnown) :
    orientation spec mark = .ok orient ∨ orientation spec mark = .ok orient.across ∨
      ∃ reason, orientation spec mark = .error (.spec reason) := by
  have hcases : orientation spec mark = .ok .vertical ∨ orientation spec mark = .ok .horizontal ∨
      ∃ reason, orientation spec mark = .error (.spec reason) := by
    rw [orientation_of_undirected hencoding hfree]
    split
    · obtain h | h | h := between_cases mark (encoding.value "x") (encoding.value "y")
      · exact .inl h
      · exact .inr (.inl h)
      · exact .inr (.inr ⟨_, h⟩)
    · exact .inr (.inl rfl)
    · exact .inl rfl
    · exact .inr (.inr ⟨_, rfl⟩)
  obtain rfl | rfl := horient
  · exact hcases
  · obtain h | h | h := hcases
    · exact .inr (.inl h)
    · exact .inl h
    · exact .inr (.inr h)

/-- The direction is that of the one axis with a continuous column exactly if that axis prevails,
should the other be continuous too. -/
theorem orientation_eq_ok_iff (mark : String) (horient : orient.IsKnown)
    (hown : IsColumn (encoding.value orient.channel))
    (hother : ¬ IsColumn (encoding.value orient.across.channel)) :
    orientation spec mark = .ok orient ↔
      (isContinuous (encoding.value orient.across.channel) = true →
        Prevails mark orient (encoding.value orient.channel)
          (encoding.value orient.across.channel)) := by
  have hc := isContinuous_of_isColumn hown
  rw [orientation_of_undirected hencoding hfree]
  obtain rfl | rfl := horient
  · change isContinuous (encoding.value "y") = true at hc
    change ¬ IsColumn (encoding.value "x") at hother
    show _ ↔ (isContinuous (encoding.value "x") = true → Prevails mark .vertical
      (encoding.value "y") (encoding.value "x"))
    rw [hc]
    cases hx : isContinuous (encoding.value "x") with
    | false => simp
    | true => simpa using (between_iff (aggregateOf_cases hx hother)).1
  · change isContinuous (encoding.value "x") = true at hc
    change ¬ IsColumn (encoding.value "y") at hother
    show _ ↔ (isContinuous (encoding.value "y") = true → Prevails mark .horizontal
      (encoding.value "x") (encoding.value "y"))
    rw [hc]
    cases hy : isContinuous (encoding.value "y") with
    | false => simp
    | true => simpa using (between_iff (aggregateOf_cases hy hother)).2

/-- Where exactly one of the two axes has a continuous column and the mark has no direction of its
own, the composite mark lies along that column exactly if the other axis is not continuous or does
not prevail. Otherwise the specification is refused. -/
theorem along_column_iff (mark : String) (horient : orient.IsKnown)
    (hvalue : encoding.value orient.channel = .object members) (hown : IsColumn (.object members))
    (hother : ¬ IsColumn (encoding.value orient.across.channel)) :
    ((along spec mark).outcome = .ok ⟨orient.channel, members.erase "aggregate"⟩ ↔
        (isContinuous (encoding.value orient.across.channel) = true →
          Prevails mark orient (.object members) (encoding.value orient.across.channel))) ∧
      ((along spec mark).outcome = .ok ⟨orient.channel, members.erase "aggregate"⟩ ∨
        ∃ reason, (along spec mark).outcome = .error (.spec reason)) := by
  have hiff := orientation_eq_ok_iff hencoding hfree mark horient (hvalue ▸ hown) hother
  rw [hvalue] at hiff
  obtain h | h | ⟨reason, h⟩ := orientation_cases hencoding hfree mark horient
  · have hok : (along spec mark).outcome = .ok ⟨orient.channel, members.erase "aggregate"⟩ := by
      rw [along_of_ok hencoding h hvalue, if_pos hown.1]
    exact ⟨⟨fun _ ↦ hiff.1 h, fun _ ↦ hok⟩, .inl hok⟩
  · -- the axis across is continuous, but what it has is no column
    have hnot : ¬ (isContinuous (encoding.value orient.across.channel) = true →
        Prevails mark orient (.object members) (encoding.value orient.across.channel)) := by
      intro hp
      exact Orientation.across_ne horient (Except.ok.inj (h.symm.trans (hiff.2 hp)))
    have hcontinuous : isContinuous (encoding.value orient.across.channel) = true := by
      by_contra hno
      exact hnot fun hyes ↦ absurd hyes hno
    obtain ⟨others, hothers, hnone⟩ := exists_of_not_isColumn hcontinuous hother
    have herror : (along spec mark).outcome =
        .error (.spec (.noContinuousAxis (.text mark))) := by
      rw [along_of_ok hencoding h hothers, hnone, if_neg Bool.false_ne_true]
    rw [herror]
    exact ⟨⟨nofun, fun hp ↦ absurd hp hnot⟩, .inr ⟨_, rfl⟩⟩
  · have herror : (along spec mark).outcome = .error (.spec reason) := by
      rw [along, h]
      rfl
    rw [herror]
    refine ⟨⟨nofun, fun hp ↦ ?_⟩, .inr ⟨_, rfl⟩⟩
    cases h.symm.trans (hiff.2 hp)

end Undirected

def boxplotOf (encoding : Encoding) : Record Value :=
  [("mark", .text "boxplot"), ("encoding", .object encoding)]

/-- A column along x and the number 5 across. -/
def numberAcross (column : Record Value) : Encoding :=
  [("x", .object column), ("y", .object [("datum", .int 5)])]

def aggregatedColumn : Record Value :=
  [("field", .text "v"), ("type", .text "quantitative"), ("aggregate", .text "boxplot")]

/-- A boxplot lies along the column that it aggregates, whatever is across. -/
theorem along_column_iff_aggregated :
    (along (boxplotOf (numberAcross aggregatedColumn)) "boxplot").outcome =
      .ok ⟨"x", [("field", .text "v"), ("type", .text "quantitative")]⟩ := by
  have hencoding : (boxplotOf (numberAcross aggregatedColumn)).value "encoding" =
      .object (numberAcross aggregatedColumn) := rfl
  have hvalue : (numberAcross aggregatedColumn).value "x" = .object aggregatedColumn := rfl
  have hiff := along_column_iff hencoding rfl "boxplot" (.inr rfl) hvalue (by decide) (by decide)
  exact hiff.1.2 fun _ ↦ by decide

/-- A number across turns a boxplot upwards, where there is nothing but the number. -/
theorem not_along_column_numberAcross :
    let encoding := numberAcross [("field", .text "v"), ("type", .text "quantitative")]
    (Encoding.normalize (.object encoding)).outcome = .ok encoding ∧
      IsColumn (encoding.value "x") ∧ ¬ IsColumn (encoding.value "y") ∧
      (along (boxplotOf encoding) "boxplot").outcome =
        .error (.spec (.noContinuousAxis (.text "boxplot"))) := by
  decide +kernel

end ContinuousAxis

end ChartLowering
