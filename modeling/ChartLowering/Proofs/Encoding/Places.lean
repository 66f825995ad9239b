import ChartLowering.Proofs.Encoding.Lifting

/-!
# Where rewritten definitions stand

A rewritten definition takes the place of the one that it was made from, and what it contributes is
in the extraction. The only other definitions are the ends of bins, which may displace a definition
that stood before.
-/

namespace ChartLowering

/-- The definition that reads the end of a bin. -/
def BinTransform.endDefinition (b : BinTransform) : Value :=
  .object [("field", .text (b.output ++ "_end"))]

namespace Lifted

variable {countTitle channel : String} {v w : Value} {l : Lifted}

theorem isBinned_eq_isSome (fd : FieldDef) :
    fd.isBinned = (fd.bin.filter Binning.asks).isSome := by
  rw [FieldDef.isBinned, Option.isSome_filter]

/-- Only the bins of a definition on a position channel have an end that is read on another one. -/
theorem exists_fieldDef_of_secondary (h : ofDef countTitle channel v = .ok l)
    (hw : l.secondary = some w) :
    Channel.isXOrY channel = true ∧ ∃ fd start, ChannelDef.fieldDef? v = .ok (some fd) ∧
      fd.isBinned = true ∧ givenAggregate? fd = none ∧ fd.output = .ok start ∧
      (∃ b ∈ l.bins, b.output = start) ∧ w = .object [("field", .text (start ++ "_end"))] := by
  cases arises_of_ofDef h with
  | other | plain => cases hw
  | aggregate _ _ _ hmembers h =>
      obtain ⟨m, shown, name, rfl, -, -⟩ :=
        exists_of_ofAggregate (value_field_of_readDerived hmembers) h
      cases hw
  | @bin fd start _ _ _ hdef hread haggregate hbin _ h houtput =>
      obtain ⟨ending, range, -, rfl⟩ := exists_of_ofBin h
      obtain ⟨hxy, hw⟩ := Option.ite_none_right_eq_some.1 hw
      refine ⟨hxy, fd, start, ?_, ?_, haggregate, houtput, ⟨_, List.mem_singleton_self _, rfl⟩,
        (Option.some.inj hw).symm⟩
      · rw [ChannelDef.fieldDef?, hdef, if_pos rfl, hread]
        rfl
      · rw [isBinned_eq_isSome, hbin]
        rfl
  | timeUnit _ _ _ _ _ _ h =>
      obtain ⟨shown, -, rfl⟩ := exists_of_ofTimeUnit h
      cases hw

theorem exists_bin_of_secondary (h : ofDef countTitle channel v = .ok l)
    (hw : l.secondary = some w) :
    Channel.isXOrY channel = true ∧ ∃ b ∈ l.bins, w = b.endDefinition := by
  obtain ⟨hxy, fd, start, -, -, -, -, ⟨b, hb, rfl⟩, hend⟩ := exists_fieldDef_of_secondary h hw
  exact ⟨hxy, b, hb, hend⟩

end Lifted

namespace Extraction

/-- Is all that a definition contributes part of an extraction? -/
structure Includes (e : Extraction) (l : Lifted) : Prop where
  bins : l.bins ⊆ e.bins
  measures : l.measures ⊆ e.measures
  groupby : l.groupby ⊆ e.groupby

/-- Does an extraction have all that another one has? -/
structure Below (e e' : Extraction) : Prop where
  bins : e.bins ⊆ e'.bins
  measures : e.measures ⊆ e'.measures
  groupby : e.groupby ⊆ e'.groupby

variable {e e' r : Extraction} {channel title countTitle key : String} {l : Lifted}
  {lifted : List Lifted} {v w : Value} {encoding before : Encoding}

theorem Includes.mono (h : e.Includes l) (hbelow : e.Below e') : e'.Includes l :=
  ⟨List.Subset.trans h.bins hbelow.bins, List.Subset.trans h.measures hbelow.measures,
    List.Subset.trans h.groupby hbelow.groupby⟩

theorem Below.refl : e.Below e :=
  ⟨List.Subset.refl _, List.Subset.refl _, List.Subset.refl _⟩

theorem Below.trans {e'' : Extraction} (h : e.Below e') (h' : e'.Below e'') : e.Below e'' :=
  ⟨List.Subset.trans h.bins h'.bins, List.Subset.trans h.measures h'.measures,
    List.Subset.trans h.groupby h'.groupby⟩

theorem below_add : e.Below (e.add channel l) :=
  ⟨List.subset_append_left _ _, List.subset_append_left _ _,
    fun _ hname ↦ mem_addColumns_iff.2 (.inl hname)⟩

theorem includes_add : (e.add channel l).Includes l :=
  ⟨List.subset_append_right _ _, List.subset_append_right _ _,
    fun _ hname ↦ mem_addColumns_iff.2 (.inr hname)⟩

theorem below_foldl_add : e.Below (lifted.foldl (fun e l ↦ e.add channel l) e) := by
  induction lifted generalizing e with
  | nil => exact .refl
  | cons l rest ih => exact below_add.trans ih

theorem includes_foldl_add (h : l ∈ lifted) :
    (lifted.foldl (fun e l ↦ e.add channel l) e).Includes l := by
  induction lifted generalizing e with
  | nil => cases h
  | cons first rest ih =>
      obtain rfl | h := List.mem_cons.1 h
      · exact includes_add.mono below_foldl_add
      · exact ih h

/-- On its way, a channel is given no other definition than one for the end of a range. -/
theorem get?_foldl_add (lifted : List Lifted) (e : Extraction) (channel key : String) :
    (lifted.foldl (fun e l ↦ e.add channel l) e).encoding.get? key = e.encoding.get? key ∨
      key = channel ++ "2" ∧ ∃ l ∈ lifted, ∃ w, l.secondary = some w ∧
        (lifted.foldl (fun e l ↦ e.add channel l) e).encoding.get? key = some w := by
  induction lifted generalizing e with
  | nil => exact .inl rfl
  | cons l rest ih =>
      obtain hsame | ⟨hkey, l', hl', hw⟩ := ih (e.add channel l)
      · rw [List.foldl_cons, hsame, add]
        cases hsecondary : l.secondary with
        | none => exact .inl rfl
        | some w =>
            by_cases hkey : key = channel ++ "2"
            · subst hkey
              exact .inr ⟨rfl, l, List.mem_cons_self, w, hsecondary, Record.get?_put_self _ _ _⟩
            · exact .inl (Record.get?_put_of_ne _ _ hkey)
      · exact .inr ⟨hkey, l', List.mem_cons_of_mem _ hl', hw⟩

/-- What stands on a channel afterwards, be it one definition or a list of them, is made of the
definitions before one by one. -/
theorem exists_of_addChannel (h : e.addChannel title channel v = .ok e') :
    ∃ lifted w, v.itemsOrSelf.mapM (Lifted.ofDef title channel) = .ok lifted ∧
      w.isList = v.isList ∧ w.itemsOrSelf = lifted.map Lifted.definition ∧
      e' = { lifted.foldl (fun e l ↦ e.add channel l) e with
        encoding :=
          (lifted.foldl (fun e l ↦ e.add channel l) e).encoding.put channel w } := by
  rw [addChannel.eq_def] at h
  cases v with
  | list items =>
      obtain ⟨lifted, hlifted, h⟩ := bind_eq_ok_iff.1 h
      exact ⟨lifted, .list (lifted.map Lifted.definition), hlifted, rfl, rfl,
        (Except.ok.inj h).symm⟩
  | null | bool | int | float | text | set | object | fieldDef =>
      obtain ⟨l, hl, h⟩ := bind_eq_ok_iff.1 h
      have hreplaces := Lifted.replaces_of_ofDef hl
      exact ⟨[l], l.definition, mapM_eq_ok_iff.2 (.cons hl .nil), hreplaces.isList_definition rfl,
        hreplaces.itemsOrSelf_definition rfl, (Except.ok.inj h).symm⟩

/-- Is a definition what an extraction makes of another one? -/
def Rewrites (e : Extraction) (title channel : String) (v w : Value) : Prop :=
  ∃ l, Lifted.ofDef title channel v = .ok l ∧ w = l.definition ∧ e.Includes l

/-- Is this the end of a bin, on the channel where it belongs? -/
def IsEnd (e : Extraction) (channel : String) (w : Value) : Prop :=
  ∃ axis, Channel.isXOrY axis = true ∧ channel = axis ++ "2" ∧ ∃ b ∈ e.bins, w = b.endDefinition

theorem Rewrites.mono (h : e.Rewrites title channel v w) (hbelow : e.Below e') :
    e'.Rewrites title channel v w := by
  obtain ⟨l, hl, rfl, hincludes⟩ := h
  exact ⟨l, hl, rfl, hincludes.mono hbelow⟩

theorem IsEnd.mono (h : e.IsEnd channel w) (hbelow : e.Below e') : e'.IsEnd channel w := by
  obtain ⟨axis, haxis, rfl, b, hb, rfl⟩ := h
  exact ⟨axis, haxis, rfl, b, hbelow.bins hb, rfl⟩

/-- Is this where the bins of a definition of an encoding end? -/
def EndOf (e : Extraction) (title : String) (encoding : Encoding) (channel : String)
    (w : Value) : Prop :=
  ∃ d ∈ encoding.definitions, channel = d.1 ++ "2" ∧
    ∃ l, Lifted.ofDef title d.1 d.2 = .ok l ∧ l.secondary = some w ∧ e.Includes l

theorem EndOf.isEnd (h : e.EndOf title encoding channel w) : e.IsEnd channel w := by
  obtain ⟨d, -, hchannel, l, hl, hw, hincludes⟩ := h
  obtain ⟨haxis, b, hb, rfl⟩ := Lifted.exists_bin_of_secondary hl hw
  exact ⟨d.1, haxis, hchannel, b, hincludes.bins hb, rfl⟩

theorem EndOf.mono (h : e.EndOf title before channel w) (hbefore : before ⊆ encoding)
    (hbelow : e.Below e') : e'.EndOf title encoding channel w := by
  obtain ⟨d, hd, hchannel, l, hl, hw, hincludes⟩ := h
  obtain ⟨v, hv, hd⟩ := mem_definitions_iff.1 hd
  exact ⟨d, mem_definitions_iff.2 ⟨v, hbefore hv, hd⟩, hchannel, l, hl, hw,
    hincludes.mono hbelow⟩

/-- Do the definitions on a channel stand for others one by one, in a list if those did? -/
structure RewritesAll (e : Extraction) (title channel : String) (v w : Value) : Prop where
  isList : w.isList = v.isList
  items : List.Forall₂ (e.Rewrites title channel) v.itemsOrSelf w.itemsOrSelf

theorem RewritesAll.mono (h : e.RewritesAll title channel v w) (hbelow : e.Below e') :
    e'.RewritesAll title channel v w :=
  ⟨h.isList, h.items.imp fun _ _ hxy ↦ hxy.mono hbelow⟩

theorem RewritesAll.exists_of_mem (h : e.RewritesAll title channel v w) {y : Value}
    (hy : y ∈ w.itemsOrSelf) : ∃ x ∈ v.itemsOrSelf, e.Rewrites title channel x y := by
  have key : ∀ {xs ys}, List.Forall₂ (e.Rewrites title channel) xs ys → y ∈ ys →
      ∃ x ∈ xs, e.Rewrites title channel x y := by
    intro xs ys h hy
    induction h with
    | nil => cases hy
    | @cons x _ _ _ hx _ ih =>
        obtain rfl | hy := List.mem_cons.1 hy
        · exact ⟨x, List.mem_cons_self, hx⟩
        · obtain ⟨x', hx', hrewrites⟩ := ih hy
          exact ⟨x', List.mem_cons_of_mem _ hx', hrewrites⟩
  exact key h.items hy

/-- Adding a channel puts its definitions in their place and changes nothing else but the end of a
range. -/
theorem get?_of_addChannel (h : e.addChannel title channel v = .ok e') (key : String) :
    e.Below e' ∧
      (key = channel ∧ (∃ w, e'.encoding.get? key = some w ∧ e'.RewritesAll title channel v w) ∨
        key ≠ channel ∧ (e'.encoding.get? key = e.encoding.get? key ∨
          ∃ w, e'.encoding.get? key = some w ∧ e'.EndOf title [(channel, v)] key w)) := by
  obtain ⟨lifted, w, hlifted, hlist, hw, rfl⟩ := exists_of_addChannel h
  have hbelow : e.Below (lifted.foldl (fun e l ↦ e.add channel l) e) := below_foldl_add
  refine ⟨⟨hbelow.bins, hbelow.measures, hbelow.groupby⟩, ?_⟩
  by_cases hkey : key = channel
  · subst hkey
    refine .inl ⟨rfl, w, Record.get?_put_self _ _ _, hlist, ?_⟩
    obtain ⟨hlength, hzip⟩ := List.forall₂_iff_zip.1 (mapM_eq_ok_iff.1 hlifted)
    rw [hw, List.forall₂_map_right_iff]
    refine List.forall₂_iff_zip.2 ⟨hlength, fun hmem ↦ ⟨_, hzip hmem, rfl, ?_⟩⟩
    have hincludes : (lifted.foldl (fun e l ↦ e.add key l) e).Includes _ :=
      includes_foldl_add (List.of_mem_zip hmem).2
    exact ⟨hincludes.bins, hincludes.measures, hincludes.groupby⟩
  · refine .inr ⟨hkey, ?_⟩
    dsimp only
    rw [Record.get?_put_of_ne _ _ hkey]
    obtain hsame | ⟨rfl, l, hl, w', hw', hget⟩ := get?_foldl_add lifted e channel key
    · exact .inl hsame
    · obtain ⟨x, hx, hof⟩ := (mem_of_mapM_eq_ok hlifted).1 hl
      have hmem : (channel, x) ∈ Encoding.definitions [(channel, v)] :=
        mem_definitions_iff.2 ⟨v, List.mem_singleton_self _, hx⟩
      have hincludes : (lifted.foldl (fun e l ↦ e.add channel l) e).Includes l :=
        includes_foldl_add hl
      exact .inr ⟨_, hget, _, hmem, rfl, l, hof, hw', hincludes.bins, hincludes.measures,
        hincludes.groupby⟩

/-- The title of counts: that of the settings, unless it is empty. -/
def titleFor (countTitle : String) : String :=
  if countTitle = "" then Defaults.countTitle else countTitle

/-- What holds of an extraction for the channels that have been added so far holds of the whole,
for all channels. -/
theorem induction_before {P : Encoding → Extraction → Prop} (hempty : P [] empty)
    (hadd : ∀ before channel v after e e', encoding = before ++ (channel, v) :: after →
      P before e → e.addChannel (titleFor countTitle) channel v = .ok e' →
      P (before ++ [(channel, v)]) e')
    (h : ofEncoding encoding countTitle = .ok r) : P encoding r := by
  have key : ∀ (rest before : Encoding) (start : Extraction), encoding = before ++ rest →
      P before start →
      rest.foldlM (fun e m ↦ e.addChannel (titleFor countTitle) m.1 m.2) start = .ok r →
      P encoding r := by
    intro rest
    induction rest with
    | nil =>
        rintro before start rfl hstart h
        rw [List.append_nil]
        exact Except.ok.inj h ▸ hstart
    | cons m rest ih =>
        intro before start hsplit hstart h
        obtain ⟨next, hnext, h⟩ := bind_eq_ok_iff.1 h
        have hstep := hadd before m.1 m.2 rest start next hsplit hstart hnext
        refine ih (before ++ [m]) next ?_ hstep h
        rw [hsplit, List.append_assoc, List.singleton_append]
  exact key encoding [] empty rfl hempty h

/-- Whatever stands on a channel is the end of the bins of a definition, or was made of a definition
on the same channel. -/
theorem origin_of_ofEncoding (h : ofEncoding encoding countTitle = .ok r)
    (hget : r.encoding.get? channel = some w) :
    r.EndOf (titleFor countTitle) encoding channel w ∨
      ∃ v, (channel, v) ∈ encoding ∧ r.RewritesAll (titleFor countTitle) channel v w := by
  let P (before : Encoding) (e : Extraction) : Prop :=
    ∀ channel w, e.encoding.get? channel = some w →
      e.EndOf (titleFor countTitle) before channel w ∨
        ∃ v, (channel, v) ∈ before ∧ e.RewritesAll (titleFor countTitle) channel v w
  have hall : P encoding r := by
    refine induction_before (fun _ _ hget ↦ nomatch hget) ?_ h
    intro before added v after e e' _ he hadded channel w hget
    obtain ⟨hbelow, ⟨rfl, w', hget', hrewrites⟩ | ⟨-, hsame | ⟨w', hget', hend⟩⟩⟩ :=
      get?_of_addChannel hadded channel
    · obtain rfl := Option.some.inj (hget.symm.trans hget')
      exact .inr ⟨v, List.mem_append_right _ (List.mem_singleton_self _), hrewrites⟩
    · obtain hend | ⟨v', hv', hrewrites⟩ := he channel w (hsame ▸ hget)
      · exact .inl (hend.mono (List.subset_append_left _ _) hbelow)
      · exact .inr ⟨v', List.mem_append_left _ hv', hrewrites.mono hbelow⟩
    · obtain rfl := Option.some.inj (hget.symm.trans hget')
      exact .inl (hend.mono (List.subset_append_right _ _) .refl)
  exact hall channel w hget

/-- Every definition of a lifted encoding is the end of the bins of a definition, or was made of a
definition on the same channel. -/
theorem origin_of_mem_definitions (h : ofEncoding encoding countTitle = .ok r)
    {d : String × Value} (hd : d ∈ Encoding.definitions r.encoding) :
    r.EndOf (titleFor countTitle) encoding d.1 d.2 ∨ ∃ v, (d.1, v) ∈ encoding.definitions ∧
      r.Rewrites (titleFor countTitle) d.1 v d.2 := by
  obtain ⟨w, hw, hd⟩ := mem_definitions_iff.1 hd
  have hget := Record.get?_of_mem (nodup_keys_of_ofEncoding h) hw
  obtain hend | ⟨v, hv, hrewrites⟩ := origin_of_ofEncoding h hget
  · obtain ⟨-, -, -, b, -, rfl⟩ := hend.isEnd
    obtain hw : d.2 = b.endDefinition := List.mem_singleton.1 hd
    exact .inl (hw ▸ hend)
  · obtain ⟨x, hx, hrewrites⟩ := hrewrites.exists_of_mem hd
    exact .inr ⟨x, mem_definitions_iff.2 ⟨v, hv, hx⟩, hrewrites⟩

/-- Where the definitions of a channel stood, those that were made of them stand, or the end of a
bin. -/
theorem place_of_ofEncoding (hkeys : encoding.keys.Nodup)
    (h : ofEncoding encoding countTitle = .ok r) (hmem : (channel, v) ∈ encoding) :
    ∃ w, r.encoding.get? channel = some w ∧
      (r.RewritesAll (titleFor countTitle) channel v w ∨ r.IsEnd channel w) := by
  let P (before : Encoding) (e : Extraction) : Prop :=
    ∀ channel v, (channel, v) ∈ before → ∃ w, e.encoding.get? channel = some w ∧
      (e.RewritesAll (titleFor countTitle) channel v w ∨ e.IsEnd channel w)
  have hall : P encoding r := by
    refine induction_before (fun _ _ hmem ↦ nomatch hmem) ?_ h
    intro before added v after e e' hsplit he hadded channel v' hmem
    have hfresh : ∀ v', (added, v') ∉ before := by
      intro v' hv'
      rw [hsplit, Record.keys, List.map_append, List.map_cons, List.nodup_append] at hkeys
      exact hkeys.2.2 added (List.mem_map_of_mem (f := Prod.fst) hv') added List.mem_cons_self rfl
    obtain ⟨hbelow, ⟨rfl, w', hget', hrewrites⟩ | ⟨hne, hstand⟩⟩ :=
      get?_of_addChannel hadded channel
    · obtain hmem | hmem := List.mem_append.1 hmem
      · exact absurd hmem (hfresh v')
      · obtain ⟨-, rfl⟩ := Prod.mk.inj (List.mem_singleton.1 hmem)
        exact ⟨w', hget', .inl hrewrites⟩
    · obtain hmem | hmem := List.mem_append.1 hmem
      · obtain ⟨w, hget, hold⟩ := he channel v' hmem
        obtain hsame | ⟨w', hget', hend⟩ := hstand
        · exact ⟨w, hsame.trans hget, hold.imp (·.mono hbelow) (·.mono hbelow)⟩
        · exact ⟨w', hget', .inr hend.isEnd⟩
      · exact absurd (Prod.mk.inj (List.mem_singleton.1 hmem)).1 hne
  exact hall channel v hmem

end Extraction

end ChartLowering
