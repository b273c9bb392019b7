import LiveChain.Proofs.Live.Coherence
import LiveChain.Proofs.Locate.Identity

/-!
# Edits by key

A key stands for one value of a session, so an edit by key is an edit of that value.
-/

set_option autoImplicit false

namespace LiveChain.Live

open Editor Text

variable {names : SlotNames} {registry : Option Registry} {keywords : List String} {p : Program}
  {text : List Char}

theorem find?_key {α β : Type} {f : α → β} {test : α → Bool} {x : α} {xs : List α}
    (hnodup : (xs.map f).Nodup) (hx : x ∈ xs) (htest : ∀ y, test y = true ↔ f y = f x) :
    xs.find? test = some x := by
  cases hfound : xs.find? test with
  | none => exact absurd ((htest x).mpr rfl) (List.find?_eq_none.mp hfound x hx)
  | some y =>
    have hkey := (htest y).mp (List.find?_some hfound)
    exact congrArg some (List.inj_on_of_nodup_map hnodup (List.mem_of_find?_eq_some hfound) hx hkey)

theorem locate_ordinals_nodup :
    ((locate names registry keywords (some p) text).result.map (·.ordinal)).Nodup := by
  have hfound := @locateFrom_ascending names registry (lines text)
    (candidates names keywords text p).result 0
  exact (hfound.imp fun hlt => Nat.ne_of_lt hlt).sublist (locate_sublist.map _)

/-- No two values have one key, a key tells the line and the column of its value, and in a session
with these values editing by a key does what editing the one value with that key does. -/
structure Keyed (values : List EditableValue) : Prop where
  distinct : (values.map (·.key)).Nodup
  placed : ∀ v ∈ values, keyPlace? v.key = some (v.line, v.column)
  edited : ∀ w : World, w.session.values = values → ∀ v ∈ values, ∀ value,
    w.session.valueAt? v.ordinal = some v ∧ w.updateByKey v.key value = w.update v.ordinal value

theorem keyed_locate (h : p.DistinctStarts names) :
    Keyed (locate names registry keywords (some p) text).result where
  distinct := locate_keys_nodup h
  placed v hv := keyPlace?_of_mem_locate hv
  edited w hw v hv value := by
    have hordinal : w.session.valueAt? v.ordinal = some v := by
      rw [Session.valueAt?, hw]
      exact find?_key locate_ordinals_nodup hv fun y => by simp
    have hkey : (w.session.values.find? fun y => y.key == v.key) = some v := by
      rw [hw]
      exact find?_key (locate_keys_nodup h) hv fun y => beq_iff_eq
    exact ⟨hordinal, by rw [World.updateByKey, hkey]⟩

theorem findings_keyed (settings : Settings) (text : Option (List Char)) :
    Keyed (findings settings text).2 := by
  have hnone : Keyed [] := ⟨List.nodup_nil, nofun, fun _ _ _ hv => nomatch hv⟩
  unfold findings
  simp only
  split
  · exact hnone
  · split
    · exact hnone
    · next p hp => exact keyed_locate (parseProgram_distinctStarts hp)

/-- Keys identify values, whatever the calls and their parameters are called: in a tree in which no
two values start at one place, in every parsed text, and in every session. -/
theorem keys_identify_values (names : SlotNames) (registry : Option Registry)
    (keywords : List String) (p : Program) (text : List Char) :
    (p.DistinctStarts names → Keyed (locate names registry keywords (some p) text).result) ∧
      (parseProgram text = .ok p → p.DistinctStarts names) ∧
      ∀ w : World, w.Reachable → Keyed w.session.values := by
  refine ⟨keyed_locate, parseProgram_distinctStarts, fun w hw => ?_⟩
  have hvalues : w.session.values = (findings w.session.settings w.session.text).2 :=
    congrArg Prod.snd hw.coherent.found
  rw [hvalues]
  exact findings_keyed _ _

/-- A call and a parameter whose names look like the end of a key. -/
theorem keys_identify_values_imitating :
    let text := "osc(10).osc_x_line0_pos4_value(3, 3)".toList
    let settings : Settings := { World.plainSettings with
      registry := .ofCalls [("osc", [⟨"x_line0_pos31_value", "float", .null⟩])] }
    let range : Range := ⟨⟨0, 0⟩, ⟨0, 36⟩⟩
    let w := (World.opened settings text (fun _ => none) (fun _ => none) Host.echoReplaced true).run
      [.begin text range]
    ∃ p, parseProgram text = .ok p ∧ p.DistinctStarts settings.names ∧ w.Reachable ∧
      Keyed (locate settings.names (some settings.registry) settings.keywords (some p)
        text).result ∧ Keyed w.session.values ∧
      w.session.values.map (·.key) = ["osc_x_line0_pos31_value_line0_pos4_value",
        "osc_x_line0_pos4_value_val1_line0_pos31_value",
        "osc_x_line0_pos4_value_val2_line0_pos34_value"] := by
  intro text settings range w
  have hparses : (parseProgram text).toOption.isSome = true := by decide +kernel
  have hkeys : w.session.values.map (·.key) = ["osc_x_line0_pos31_value_line0_pos4_value",
      "osc_x_line0_pos4_value_val1_line0_pos31_value",
      "osc_x_line0_pos4_value_val2_line0_pos34_value"] := by decide +kernel
  cases hparse : parseProgram text with
  | error e =>
    rw [hparse] at hparses
    cases hparses
  | ok p =>
    obtain ⟨hkeyed, hdistinct, hreached⟩ := keys_identify_values settings.names
      (some settings.registry) settings.keywords p text
    have hreachable : w.Reachable := ⟨settings, text, _, _, _, _, _, rfl⟩
    exact ⟨p, rfl, hdistinct hparse, hreachable, hkeyed (hdistinct hparse),
      hreached w hreachable, hkeys⟩

end LiveChain.Live
