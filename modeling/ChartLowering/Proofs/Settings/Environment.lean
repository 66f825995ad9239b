import ChartLowering.Proofs.Number.Rounding
import ChartLowering.Proofs.Settings.Heeded

/-!
# Numbers from the environment

A text for a number is read as the double next to it. Words for what is no finite number are taken
as well, and so are numbers beyond all doubles. What a variable gives for the extent of boxplots is
their extent then.
-/

namespace ChartLowering

namespace Binary64

variable {x : Binary64} {cs : List Char} {s : String} {negative : Bool}

theorem isFinite_of_proper (h : x.Proper) : x.isFinite = true := by
  cases x with
  | finite => rfl
  | nan | infinite => exact h.elim

theorem proper_of_ofUnsigned? (h : ofUnsigned? negative cs = some x)
    (hfinite : x.isFinite = true) : x.Proper := by
  unfold ofUnsigned? at h
  dsimp only at h
  split at h
  · obtain rfl := Option.some.inj h
    cases hfinite
  · split at h
    · obtain rfl := Option.some.inj h
      cases hfinite
    · have hdecimal (digits : ℕ) (e : ℤ) (hx : ofDecimal negative digits e = x) : x.Proper := by
        subst hx
        refine (ofDecimal_proper _ _ _).resolve_left fun hinfinite ↦ ?_
        rw [hinfinite] at hfinite
        cases hfinite
      -- There may be a point after the first digits.
      split at h
      all_goals
        dsimp only at h
        split at h
        · cases h
        · obtain ⟨e, -, he⟩ := Option.map_eq_some_iff.1 h
          exact hdecimal _ _ he

theorem proper_of_ofText? (h : ofText? s = some x) (hfinite : x.isFinite = true) : x.Proper := by
  unfold ofText? at h
  split at h
  · unfold ofChars? at h
    split at h <;> exact proper_of_ofUnsigned? h hfinite
  · cases h

end Binary64

namespace Settings

variable {environment : Record String} {start s : String} {base settings : Settings} {x : Binary64}

theorem nodup_keys_environmentLayer (environment : Record String) (start : String) :
    (environmentLayer environment start).keys.Nodup := by
  have hsub :
      (environmentLayer environment start).keys.Sublist ["boxplot", "errorbar", "mark"] := by
    rw [environmentLayer, Record.keys, List.map_map]
    exact List.filter_sublist.map Prod.fst
  exact hsub.nodup (by decide)

theorem get?_environmentLayer_boxplot
    (hs : valueIn? environment (start ++ "BOXPLOT_EXTENT") = some s) :
    (environmentLayer environment start).get? "boxplot" =
      some (.object [("extent", numberOrToken s)]) := by
  rw [environmentLayer, hs]
  rfl

/-- A single member that is laid over a block, or over nothing, is in it. -/
theorem get?_of_mergeValue_single {current : Option Value} {key : String} {v : Value}
    {found : Record Value} (hv : v.isObject = false)
    (h : mergeValue current (.object [(key, v)]) = .object found) :
    found.get? key = some v := by
  have hsingle (h : Value.object [(key, v)] = .object found) : found.get? key = some v := by
    obtain rfl := Value.object.inj h
    rw [Record.get?_cons, if_pos rfl]
  match current with
  | none =>
      rw [mergeValue_none] at h
      exact hsingle h
  | some old =>
      cases hold : old.isObject with
      | false =>
          rw [mergeValue_over hold] at h
          exact hsingle h
      | true =>
          obtain ⟨base, rfl⟩ := Value.exists_of_isObject hold
          rw [mergeValue_object] at h
          obtain rfl := Value.object.inj h
          have hkeys : (Record.keys [(key, v)]).Nodup := List.nodup_singleton key
          rw [get?_deepMerge hkeys, Record.get?_cons, if_pos rfl, Option.map_some,
            mergeValue_of_not_object hv]
          rfl

/-- A number from the environment is the extent of all boxplots. -/
theorem extent_of_ofEnvironment (h : ofEnvironment environment start base = .ok settings)
    (hs : valueIn? environment (start ++ "BOXPLOT_EXTENT") = some s)
    (hx : Binary64.ofText? s = some x) : settings.boxplot.extent = .multiplier x := by
  have hlayer := get?_environmentLayer_boxplot hs
  rw [numberOrToken, hx] at hlayer
  obtain ⟨hnil, -⟩ | ⟨-, h⟩ := Setting.apply_eq_ok h
  · rw [hnil] at hlayer
    cases hlayer
  · have hlaid : (deepMerge base.members (environmentLayer environment start)).get? "boxplot" =
        some (mergeValue (base.members.get? "boxplot") (.object [("extent", .float x)])) := by
      rw [get?_deepMerge (nodup_keys_environmentLayer environment start), hlayer]
      rfl
    obtain ⟨found, hfound, hread⟩ := Setting.section_boxplot.read _ _ h _ hlaid
    have hextent : some (.float x) = some settings.boxplot.extent.toValue :=
      hread _ List.mem_cons_self _ (get?_of_mergeValue_single rfl hfound)
    cases hgiven : settings.boxplot.extent with
    | multiplier k =>
        rw [hgiven] at hextent
        exact congrArg _ (Value.float.inj (Option.some.inj hextent)).symm
    | tukey | minMax =>
        rw [hgiven] at hextent
        cases hextent

end Settings

end ChartLowering
