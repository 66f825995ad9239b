import ChartLowering.Composite.Tooltip
import ChartLowering.Proofs.Composite.Columns

/-!
# What composite marks read

A part of a composite mark reads the columns of its statistics, those of the rest of the encoding,
and those that its tooltip lists.
-/

namespace ChartLowering

namespace Record

variable {α : Type} {r : Record α} {key : String}

theorem get?_without_of_mem {keys : List String} (h : key ∈ keys) :
    (r.without keys).get? key = none := by
  induction r with
  | nil => rfl
  | cons m rest ih =>
      obtain ⟨k, v⟩ := m
      rw [without, List.filter_cons]
      split
      · rename_i hk
        rw [get?_cons, if_neg]
        · exact ih
        · rintro rfl
          simp [h] at hk
      · exact ih

theorem mem_of_value_truthy {r : Record Value} (h : (r.value key).truthy = true) :
    (key, r.value key) ∈ r := by
  rw [Record.value] at h ⊢
  cases hget : r.get? key with
  | none =>
      rw [hget] at h
      cases h
  | some v => exact Record.mem_of_get? hget

end Record

namespace Encoding

variable {e other : Encoding} {path : String}

theorem mem_reads_iff : path ∈ e.reads ↔
    ∃ m ∈ e, ∃ v ∈ m.2.itemsOrSelf, path ∈ ChannelDef.reads v := by
  rw [reads, List.mem_flatMap]
  constructor
  · rintro ⟨d, hd, hpath⟩
    obtain ⟨v, hv, hitem⟩ := Extraction.mem_definitions_iff.1 hd
    exact ⟨_, hv, d.2, hitem, hpath⟩
  · rintro ⟨m, hm, v, hv, hpath⟩
    exact ⟨(m.1, v), Extraction.mem_definitions_iff.2 ⟨m.2, hm, hv⟩, hpath⟩

theorem reads_mono (h : ∀ m ∈ e, m ∈ other) (hpath : path ∈ e.reads) : path ∈ other.reads := by
  obtain ⟨m, hm, hread⟩ := mem_reads_iff.1 hpath
  exact mem_reads_iff.2 ⟨m, h m hm, hread⟩

theorem mem_reads_append :
    path ∈ Encoding.reads (e ++ other) ↔ path ∈ e.reads ∨ path ∈ other.reads := by
  simp only [mem_reads_iff, List.mem_append, or_and_right, exists_or]

theorem mem_reads_of_override (h : path ∈ Encoding.reads (e.override other)) :
    path ∈ e.reads ∨ path ∈ other.reads := by
  obtain ⟨m, hm, hread⟩ := mem_reads_iff.1 h
  obtain hm | hm := Record.mem_of_mem_override hm
  · exact .inl (mem_reads_iff.2 ⟨m, hm, hread⟩)
  · exact .inr (mem_reads_iff.2 ⟨m, hm, hread⟩)

theorem mem_reads_single {channel : String} {v : Value} :
    path ∈ Encoding.reads [(channel, v)] ↔ ∃ w ∈ v.itemsOrSelf, path ∈ ChannelDef.reads w := by
  simp [mem_reads_iff]

end Encoding

theorem ChannelDef.reads_object {members : Record Value} {name : String}
    (hfield : members.value "field" = .text name) (hcondition : members.value "condition" = .null) :
    reads (.object members) = [name] := by
  simp [reads, fieldName?, conditions, hfield, hcondition, Value.text?, Value.itemsOrSelf]

theorem ChannelDef.mem_field_of_fieldName? {r : Record Value} {name : String}
    (h : ChannelDef.fieldName? (.object r) = some name) : ("field", Value.text name) ∈ r := by
  rw [ChannelDef.fieldName?, Record.value] at h
  cases hget : r.get? "field" with
  | none =>
      rw [hget] at h
      cases h
  | some v =>
      rw [hget] at h
      cases v <;> simp [Value.ofOption, Value.text?] at h
      exact Record.mem_of_get? (h ▸ hget)

namespace Part.Context

variable {c : Context} {path : String}

theorem reads_position (statistic : String) :
    ChannelDef.reads (.object (c.position statistic)) =
      [statistic ++ "_" ++ c.axis.field.shown] := by
  refine ChannelDef.reads_object rfl ?_
  rw [position, Record.value]
  simp only [List.filterMap_cons, List.filterMap_nil]
  cases c.axis.definition.get? "scale" <;> cases c.axis.definition.get? "axis" <;> split <;> rfl

theorem mem_reads_encodingOf {start : String} {stop : Option String} {extra : Encoding}
    (h : path ∈ Encoding.reads (c.encodingOf start stop extra)) :
    (∃ statistic ∈ start :: stop.toList, path = statistic ++ "_" ++ c.axis.field.shown) ∨
      path ∈ c.encoding.reads ∨ path ∈ extra.reads := by
  obtain h | h := Encoding.mem_reads_of_override h
  · obtain h | h := Encoding.mem_reads_of_override h
    · refine .inl ?_
      obtain h | h := Encoding.mem_reads_append.1 h
      · obtain ⟨v, hv, hpath⟩ := Encoding.mem_reads_single.1 h
        obtain rfl := List.mem_singleton.1 hv
        rw [reads_position, List.mem_singleton] at hpath
        exact ⟨start, List.mem_cons_self, hpath⟩
      · cases stop with
        | none => cases h
        | some stop =>
            obtain ⟨v, hv, hpath⟩ := Encoding.mem_reads_single.1 h
            obtain rfl := List.mem_singleton.1 hv
            obtain rfl := List.mem_singleton.1 hpath
            exact ⟨stop, by simp, rfl⟩
    · exact .inr (.inl h)
  · exact .inr (.inr h)

theorem mem_make {part start : String} {mark : MarkDef} {stop : Option String}
    {extra : Encoding} {layer : UnitLayer} (h : layer ∈ c.make part mark start stop extra) :
    layer.transforms = [] ∧ layer.encoding = c.encodingOf start stop extra := by
  obtain ⟨-, rfl⟩ := mem_layers_iff.1 h
  exact ⟨rfl, rfl⟩

end Part.Context

namespace Tooltip

variable {definition : Record Value} {encoding tooltip : Encoding} {rows : List Row}
  {withField : Bool} {path ending : String}

theorem reads_of_ofRow {row : Row} {v : Value} (h : ofRow definition ending row = .ok v) :
    ChannelDef.reads v = [row.column ++ (definition.value "field").shown] := by
  obtain ⟨field, hfield, h⟩ := bind_eq_ok_iff.1 h
  have hvalue : definition.value "field" = field := by
    rw [Record.require] at hfield
    rw [Record.value]
    split at hfield
    · rename_i hget
      rw [hget, Except.ok.inj hfield]
      rfl
    · cases hfield
  rw [hvalue]
  split at h
  · obtain rfl := Except.ok.inj h
    exact ChannelDef.reads_object rfl rfl
  · cases h

theorem mem_of_unique {items found : List Value} (h : Json.unique items = .ok found) {v : Value}
    (hv : v ∈ found) : v ∈ items := by
  have key : ∀ (items : List Value) (seen : List String) (found : List Value),
      Json.uniqueFrom seen items = .ok found → v ∈ found → v ∈ items := by
    intro items
    induction items with
    | nil =>
        intro seen found h hv
        obtain rfl := Except.ok.inj h
        exact hv
    | cons w rest ih =>
        intro seen found h hv
        obtain ⟨d, -, h⟩ := bind_eq_ok_iff.1 h
        split at h
        · exact List.mem_cons_of_mem _ (ih seen found h hv)
        · obtain ⟨others, hothers, h⟩ := bind_eq_ok_iff.1 h
          obtain rfl := Except.ok.inj h
          obtain rfl | hv := List.mem_cons.1 hv
          · exact List.mem_cons_self
          · exact List.mem_cons_of_mem _ (ih _ _ hothers hv)
  exact key items [] found h hv

theorem exists_reference_of_ofFields {found : List Value} (h : ofFields encoding = .ok found)
    {v : Value} (hv : v ∈ found) :
    ∃ fds, ChannelDef.fieldDefs encoding = .ok fds ∧
      ∃ fd ∈ fds, ∃ path, fd.reference = .ok path ∧ ChannelDef.reads v = [path] := by
  obtain ⟨fds, hfds, h⟩ := bind_eq_ok_iff.1 h
  obtain ⟨fields, hfields, h⟩ := bind_eq_ok_iff.1 h
  obtain ⟨fd, hfd, hv⟩ := (mem_of_mapM_eq_ok hfields).1 (mem_of_unique h hv)
  obtain ⟨members, hmembers, hv⟩ := bind_eq_ok_iff.1 hv
  obtain rfl := Except.ok.inj hv
  obtain ⟨path, hpath, hmembers⟩ := bind_eq_ok_iff.1 hmembers
  obtain rfl := Except.ok.inj hmembers
  refine ⟨fds, hfds, fd, hfd, path, hpath, ChannelDef.reads_object Record.value_put_self ?_⟩
  rw [Record.value_put_of_ne (by decide), Record.value, Record.get?_without_of_mem (by decide)]
  rfl

/-- A tooltip is the author's own, or it lists the statistics and then all fields. -/
theorem exists_of_channel (h : channel rows definition encoding withField = .ok tooltip) :
    ∃ v, tooltip = [("tooltip", v)] ∧ (encoding.get? "tooltip" = some v ∨
      ∃ ending summary listed, v = .list (summary ++ listed) ∧
        rows.mapM (ofRow definition ending) = .ok summary ∧ ofFields encoding = .ok listed) := by
  rw [channel] at h
  split at h
  · rename_i own hown
    exact ⟨own, (Except.ok.inj h).symm, .inl hown⟩
  · obtain ⟨summary, hsummary, h⟩ := bind_eq_ok_iff.1 h
    obtain ⟨listed, hlisted, h⟩ := bind_eq_ok_iff.1 h
    exact ⟨_, (Except.ok.inj h).symm, .inr ⟨_, summary, listed, rfl, hsummary, hlisted⟩⟩

/-- A tooltip reads what the author's own does, or else its statistics and the fields it lists. -/
theorem mem_reads_channel (h : channel rows definition encoding withField = .ok tooltip)
    (hpath : path ∈ tooltip.reads) :
    path ∈ encoding.reads ∨
      (∃ row ∈ rows, path = row.column ++ (definition.value "field").shown) ∨
      ∃ fds, ChannelDef.fieldDefs encoding = .ok fds ∧ ∃ fd ∈ fds, fd.reference = .ok path := by
  obtain ⟨v, rfl, hown | ⟨ending, summary, listed, rfl, hsummary, hlisted⟩⟩ := exists_of_channel h
  · obtain ⟨m, hm, hread⟩ := Encoding.mem_reads_iff.1 hpath
    obtain rfl := List.mem_singleton.1 hm
    exact .inl (Encoding.mem_reads_iff.2 ⟨_, Record.mem_of_get? hown, hread⟩)
  · obtain ⟨v, hv, hread⟩ := Encoding.mem_reads_single.1 hpath
    obtain hv | hv := List.mem_append.1 hv
    · obtain ⟨row, hrow, hv⟩ := (mem_of_mapM_eq_ok hsummary).1 hv
      rw [reads_of_ofRow hv, List.mem_singleton] at hread
      exact .inr (.inl ⟨row, hrow, hread⟩)
    · obtain ⟨fds, hfds, fd, hfd, other, hother, hreads⟩ := exists_reference_of_ofFields hlisted hv
      rw [hreads, List.mem_singleton] at hread
      exact .inr (.inr ⟨fds, hfds, fd, hfd, hread ▸ hother⟩)

end Tooltip

end ChartLowering
