import FormConsole.Config
import FormConsole.Proofs.Json.RoundTrip

/-!
# Settings that were saved

Loading accepts more than saving writes: settings in any order or as an array, left out or `null`, among other
members.  What is saved is one of these forms, and loading it gives exactly the settings that were saved, whatever their
texts hold.

* `Config.setting?_settingJson`: one setting, absent or not.
* `Config.load_ofText_save`: all of them.
-/

namespace FormConsole

/-- The bytes of a text hold the text. -/
theorem Contents.decode?_toUTF8 (s : String) : decode? s.toUTF8 = some s := by
  simp only [decode?, String.fromUTF8?, String.toUTF8_eq_toByteArray, dif_pos s.isValidUTF8]
  rfl

namespace Config

section Document

theorem load_ofText (s : String) : load (.ofText s) = ofText s := by
  rw [Contents.ofText, load, Contents.decode?_toUTF8]

/-- A setting reads back: only an absent one is written as `null`. -/
theorem setting?_settingJson {α : Type} {read : Json → Option α} {write : α → Json}
    (hread : ∀ a, read (write a) = some a) (hnull : ∀ a, write a ≠ .null) (o : Option α) :
    setting? read (some (settingJson write o)) = some o := by
  cases o with
  | none => rfl
  | some a =>
    rw [settingJson]
    unfold setting?
    split
    · next heq => exact absurd heq (by simp)
    · next heq => exact absurd (Option.some.inj heq) (hnull a)
    · next heq => rw [← Option.some.inj heq, hread, Option.map_some]

theorem plain_members (c : Config) : ∀ m ∈ c.members, m.2.Plain := by
  have hsetting : ∀ {α : Type} {write : α → Json}, (∀ a, (write a).Plain) → ∀ o : Option α,
      (settingJson write o).Plain := by
    intro α write hwrite o
    cases o with
    | none => exact .null
    | some a => exact hwrite a
  simp only [members, List.mem_cons, List.not_mem_nil, or_false, forall_eq_or_imp, forall_eq]
  exact ⟨hsetting .text _, hsetting .text _, hsetting .text _, hsetting .bool _⟩

theorem ofJson?_members (c : Config) : ofJson? (.record c.members) = some c := by
  have hfields : Json.fields? ["log_filter", "fixture_path", "initial_panel", "validate_on_change"]
      (.record c.members) = some (c.members.map fun m => some m.2) :=
    Json.fields?_record c.members (by simp [members])
  have htext : ∀ o : Option String, setting? Json.text? (some (settingJson .text o)) = some o :=
    setting?_settingJson (fun _ => rfl) fun _ => by simp [Json.text]
  have hbool : ∀ o : Option Bool, setting? Json.bool? (some (settingJson .bool o)) = some o :=
    setting?_settingJson (fun _ => rfl) fun _ => by simp
  have hcomplete : isComplete (.record c.members) = true := rfl
  rw [ofJson?, if_pos hcomplete, hfields]
  simp only [members, List.map_cons, List.map_nil, Option.bind_eq_bind, Option.bind_some, htext, hbool]
  rfl

/-- Saving and loading are inverse.  Whatever the settings are, absent or any texts, loading what is saved succeeds and
gives the same settings.  So whatever contents were loaded, in any of the forms that are accepted, what is saved then
loads like those contents, and is saved as the same text again. -/
theorem load_ofText_save (c : Config) :
    load (.ofText c.save) = .ok c ∧
    ∀ contents, load contents = .ok c →
      load (.ofText c.save) = load contents ∧ (load (.ofText c.save)).map save = .ok c.save := by
  have hload : load (.ofText c.save) = .ok c := by
    rw [load_ofText, ofText, save, Json.parse?_renderRecord c.plain_members, Option.bind_some, ofJson?_members]
  refine ⟨hload, fun contents hcontents => ⟨hload.trans hcontents.symm, ?_⟩⟩
  rw [hload]
  rfl

/-- Settings as an array, one of them absent and one with a control character and a quote. -/
def arrayText : String := "[null, \"\\u0001\\\"\", \"user\", true]"

/-- The settings of the array are saved in another form, and load as the same. -/
theorem load_ofText_save_array :
    ∃ c, load (.ofText arrayText) = .ok c ∧ c = ⟨.none, some "\x01\"", some "user", some true⟩ ∧
      c.save ≠ arrayText ∧ load (.ofText c.save) = load (.ofText arrayText) := by
  have hread : (Json.parse? arrayText).bind ofJson? = some ⟨.none, some "\x01\"", some "user", some true⟩ := by
    decide +kernel
  have hload : load (.ofText arrayText) = .ok ⟨.none, some "\x01\"", some "user", some true⟩ := by
    rw [load_ofText, ofText, hread]
  exact ⟨_, hload, rfl, by decide +kernel, ((load_ofText_save _).2 _ hload).1⟩

end Document

end Config

end FormConsole
