import ScriptLint.Config.Load
import ScriptLint.Proofs.Config.IndentText

/-!
# Decoding settings

Each entry of a description sets what its value denotes and leaves the other settings alone. So the order of the entries
does not count as long as no name is repeated.
-/
namespace ScriptLint.Settings
set_option autoImplicit false

namespace Key

/-- What a setting can be. -/
def Content : Key → Type
  | xmlMode => Option Bool
  | indent => Indent
  | reportBadIndent => Bool
  | xmlExtensions => List String
  | mediaTypes => List String

/-- The value has the type of the setting, and this is what it denotes. -/
def Denotes : (key : Key) → Value → key.Content → Prop
  | xmlMode, value, mode => value = .null ∧ mode = none ∨ ∃ b, value = .bool b ∧ mode = some b
  | indent, value, found => Indent.Describes value found
  | reportBadIndent, value, report => value = .bool report
  | xmlExtensions, value, names => value = .array (names.map .string)
  | mediaTypes, value, names => value = .array (names.map .string)

def read : (key : Key) → Value → Except Fault key.Content
  | xmlMode => readXmlMode
  | indent => readIndent
  | reportBadIndent => readBool
  | xmlExtensions => readList
  | mediaTypes => readList

end Key

def get (settings : Settings) : (key : Key) → key.Content
  | .xmlMode => settings.xmlMode
  | .indent => settings.indent
  | .reportBadIndent => settings.reportBadIndent
  | .xmlExtensions => settings.xmlExtensions
  | .mediaTypes => settings.mediaTypes

def set (settings : Settings) : (key : Key) → key.Content → Settings
  | .xmlMode, xmlMode => { settings with xmlMode }
  | .indent, indent => { settings with indent }
  | .reportBadIndent, reportBadIndent => { settings with reportBadIndent }
  | .xmlExtensions, xmlExtensions => { settings with xmlExtensions }
  | .mediaTypes, mediaTypes => { settings with mediaTypes }

/-- The settings are what the values under their names denote, and those of `base` where there is none. -/
structure Follows (entries : List (String × Value)) (base settings : Settings) : Prop where
  present : ∀ (key : Key) (value : Value), (key.name, value) ∈ entries → key.Denotes value (settings.get key)
  absent : ∀ key : Key, (∀ value, (key.name, value) ∉ entries) → settings.get key = base.get key

def IsTyped (entry : String × Value) : Prop :=
  ∀ key : Key, key.name = entry.1 → ∃ content, key.Denotes entry.2 content

def IsKnown (name : String) : Prop := ∃ key : Key, key.name = name

inductive Step (base : Settings) : String × Value → Settings → Prop
  | skip {name : String} {value : Value} (h : ¬IsKnown name) : Step base (name, value) base
  | put {key : Key} {value : Value} {next : Settings} (h : base.put key value = .ok next) :
    Step base (key.name, value) next

variable {settings next base : Settings} {key : Key} {value : Value} {entries : List (String × Value)}

theorem Key.name_injective : Function.Injective Key.name := by
  intro a b h
  rw [← Option.some.injEq, ← ofName?_name a, h, ofName?_name]

theorem Key.ofName?_eq_some_iff {name : String} : ofName? name = some key ↔ key.name = name := by
  constructor
  · intro h
    exact beq_iff_eq.mp (List.find?_some (p := fun key : Key => key.name == name) h)
  · rintro rfl
    exact ofName?_name key

theorem Key.ofName?_eq_none_iff {name : String} : ofName? name = none ↔ ¬IsKnown name := by
  rw [Option.eq_none_iff_forall_ne_some, IsKnown, not_exists]
  exact forall_congr' fun key => not_congr ofName?_eq_some_iff

theorem eq_of_get (h : ∀ key, settings.get key = next.get key) : settings = next := by
  obtain ⟨mode, indent, report, extensions, types⟩ := settings
  obtain rfl : mode = next.xmlMode := h .xmlMode
  obtain rfl : indent = next.indent := h .indent
  obtain rfl : report = next.reportBadIndent := h .reportBadIndent
  obtain rfl : extensions = next.xmlExtensions := h .xmlExtensions
  obtain rfl : types = next.mediaTypes := h .mediaTypes
  rfl

theorem get_set_self (settings : Settings) (key : Key) (content : key.Content) :
    (settings.set key content).get key = content := by
  cases key <;> rfl

theorem get_set_of_ne {other : Key} (content : key.Content) (h : other ≠ key) :
    (settings.set key content).get other = settings.get other := by
  cases other <;> cases key <;> trivial

theorem readBool_eq_ok_iff {b : Bool} : readBool value = .ok b ↔ value = .bool b := by
  cases value <;> simp [readBool]

theorem readStrings_eq_ok_iff {items : List Value} {names : List String} :
    readStrings items = .ok names ↔ items = names.map .string := by
  induction items generalizing names with
  | nil => cases names <;> simp [readStrings]
  | cons item more ih =>
    cases item with
    | string s =>
      cases names with
      | nil => cases h : readStrings more <;> simp [readStrings, h, Except.map]
      | cons name names =>
        rw [List.map_cons, List.cons.injEq, ← ih, readStrings]
        cases readStrings more <;> simp [Except.map]
    | null | bool | int | float | array | object => cases names <;> simp [readStrings]

theorem readList_eq_ok_iff {names : List String} : readList value = .ok names ↔ value = .array (names.map .string) := by
  cases value <;> simp [readList, readStrings_eq_ok_iff]

theorem readXmlMode_eq_ok_iff {mode : Option Bool} :
    readXmlMode value = .ok mode ↔ value = .null ∧ mode = none ∨ ∃ b, value = .bool b ∧ mode = some b := by
  cases value <;> simp [readXmlMode, readBool, Except.map, eq_comm]

theorem Key.read_eq_ok_iff {content : key.Content} : key.read value = .ok content ↔ key.Denotes value content := by
  cases key with
  | xmlMode => exact readXmlMode_eq_ok_iff
  | indent => exact Indent.readIndent_eq_ok_iff
  | reportBadIndent => exact readBool_eq_ok_iff
  | xmlExtensions | mediaTypes => exact readList_eq_ok_iff

theorem Key.Denotes.unique {first second : key.Content} (h : key.Denotes value first)
    (h' : key.Denotes value second) : first = second :=
  Except.ok.inj ((read_eq_ok_iff.mpr h).symm.trans (read_eq_ok_iff.mpr h'))

theorem put_eq_read (settings : Settings) (key : Key) (value : Value) :
    settings.put key value = (key.read value).map (settings.set key) := by
  cases key <;> rfl

theorem put_eq_ok_iff : settings.put key value = .ok next ↔
    key.Denotes value (next.get key) ∧ ∀ other, other ≠ key → next.get other = settings.get other := by
  rw [put_eq_read]
  constructor
  · intro h
    cases hRead : key.read value with
    | error fault =>
      rw [hRead] at h
      cases h
    | ok content =>
      rw [hRead] at h
      obtain rfl : settings.set key content = next := Except.ok.inj h
      rw [get_set_self]
      exact ⟨Key.read_eq_ok_iff.mp hRead, fun other hOther => get_set_of_ne content hOther⟩
  · rintro ⟨hDenotes, hOther⟩
    rw [Key.read_eq_ok_iff.mpr hDenotes]
    apply congrArg Except.ok
    apply eq_of_get
    intro other
    by_cases h : other = key
    · subst h
      exact get_set_self settings other _
    · rw [get_set_of_ne _ h, hOther other h]

theorem exists_put_iff (settings : Settings) :
    (∃ next, settings.put key value = .ok next) ↔ ∃ content, key.Denotes value content := by
  constructor
  · rintro ⟨next, h⟩
    exact ⟨next.get key, (put_eq_ok_iff.mp h).1⟩
  · rintro ⟨content, h⟩
    refine ⟨settings.set key content, ?_⟩
    rw [put_eq_read, Key.read_eq_ok_iff.mpr h]
    rfl

theorem putAll_cons {entry : String × Value} : base.putAll (entry :: entries) = .ok settings ↔
    ∃ next, Step base entry next ∧ next.putAll entries = .ok settings := by
  obtain ⟨name, value⟩ := entry
  rw [putAll]
  constructor
  · intro h
    split at h
    · rename_i hKey
      exact ⟨base, .skip (Key.ofName?_eq_none_iff.mp hKey), h⟩
    · rename_i key hKey
      obtain rfl := Key.ofName?_eq_some_iff.mp hKey
      split at h
      · rename_i next hPut
        exact ⟨next, .put hPut, h⟩
      · cases h
  · rintro ⟨next, hStep, h⟩
    cases hStep with
    | skip hKnown => rwa [Key.ofName?_eq_none_iff.mpr hKnown]
    | put hPut => simpa only [Key.ofName?_name, hPut] using h

theorem exists_step_iff (base : Settings) {entry : String × Value} : (∃ next, Step base entry next) ↔ IsTyped entry := by
  constructor
  · rintro ⟨next, hStep⟩ key hName
    cases hStep with
    | skip hKnown => exact absurd ⟨key, hName⟩ hKnown
    | put hPut =>
      obtain rfl := Key.name_injective hName
      exact (exists_put_iff base).mp ⟨next, hPut⟩
  · intro h
    obtain ⟨name, value⟩ := entry
    by_cases hKnown : IsKnown name
    · obtain ⟨key, rfl⟩ := hKnown
      obtain ⟨next, hPut⟩ := (exists_put_iff base).mpr (h key rfl)
      exact ⟨next, .put hPut⟩
    · exact ⟨base, .skip hKnown⟩

theorem exists_putAll_iff : (∃ settings, base.putAll entries = .ok settings) ↔ ∀ entry ∈ entries, IsTyped entry := by
  induction entries generalizing base with
  | nil => exact iff_of_true ⟨base, rfl⟩ fun _ h => absurd h List.not_mem_nil
  | cons entry more ih =>
    rw [List.forall_mem_cons, ← exists_step_iff base]
    simp only [putAll_cons]
    constructor
    · rintro ⟨settings, next, hStep, h⟩
      exact ⟨⟨next, hStep⟩, ih.mp ⟨settings, h⟩⟩
    · rintro ⟨⟨next, hStep⟩, hMore⟩
      obtain ⟨settings, h⟩ := ih.mpr hMore
      exact ⟨settings, next, hStep, h⟩

theorem follows_nil : Follows [] base settings ↔ base = settings := by
  constructor
  · intro h
    exact eq_of_get fun key => (h.absent key fun _ => List.not_mem_nil).symm
  · rintro rfl
    exact ⟨fun _ _ h => absurd h List.not_mem_nil, fun _ _ => rfl⟩

theorem Follows.of_mem_iff {other : List (String × Value)} (hFollows : Follows entries base settings)
    (h : ∀ (key : Key) (value : Value), (key.name, value) ∈ entries ↔ (key.name, value) ∈ other) :
    Follows other base settings where
  present key value hMem := hFollows.present key value ((h key value).mpr hMem)
  absent key hAbsent := hFollows.absent key fun value hMem => hAbsent value ((h key value).mp hMem)

theorem follows_congr {other : List (String × Value)}
    (h : ∀ (key : Key) (value : Value), (key.name, value) ∈ entries ↔ (key.name, value) ∈ other) :
    Follows entries base settings ↔ Follows other base settings :=
  ⟨fun hFollows => hFollows.of_mem_iff h, fun hFollows => hFollows.of_mem_iff fun key value => (h key value).symm⟩

theorem follows_cons_unknown {name : String} (h : ¬IsKnown name) :
    Follows ((name, value) :: entries) base settings ↔ Follows entries base settings := by
  apply follows_congr
  intro key found
  rw [List.mem_cons, or_iff_right]
  intro hEq
  exact h ⟨key, (Prod.mk.inj hEq).1⟩

theorem follows_cons_put (hPut : base.put key value = .ok next) (hLater : ∀ found, (key.name, found) ∉ entries) :
    Follows ((key.name, value) :: entries) base settings ↔ Follows entries next settings := by
  obtain ⟨hDenotes, hOther⟩ := put_eq_ok_iff.mp hPut
  constructor
  · intro h
    have hFirst := h.present key value List.mem_cons_self
    refine ⟨fun k found hFound => h.present k found (List.mem_cons_of_mem _ hFound), fun k hAbsent => ?_⟩
    by_cases hk : k = key
    · subst hk
      exact hFirst.unique hDenotes
    · rw [hOther k hk]
      apply h.absent k
      intro found hFound
      rcases List.mem_cons.mp hFound with hEq | hFound
      · exact hk (Key.name_injective (Prod.mk.inj hEq).1)
      · exact hAbsent found hFound
  · intro h
    constructor
    · intro k found hFound
      rcases List.mem_cons.mp hFound with hEq | hFound
      · obtain ⟨hName, rfl⟩ := Prod.mk.inj hEq
        obtain rfl := Key.name_injective hName
        rw [h.absent k hLater]
        exact hDenotes
      · exact h.present k found hFound
    · intro k hAbsent
      have hk : k ≠ key := by
        rintro rfl
        exact hAbsent value List.mem_cons_self
      rw [h.absent k fun found hFound => hAbsent found (List.mem_cons_of_mem _ hFound), hOther k hk]

theorem follows_cons {entry : String × Value} (hLater : entry.1 ∉ entries.map (·.1)) :
    Follows (entry :: entries) base settings ↔ ∃ next, Step base entry next ∧ Follows entries next settings := by
  obtain ⟨name, value⟩ := entry
  have hAbsent (found : Value) : (name, found) ∉ entries := fun hFound => hLater (List.mem_map.mpr ⟨_, hFound, rfl⟩)
  constructor
  · intro h
    by_cases hKnown : IsKnown name
    · obtain ⟨key, rfl⟩ := hKnown
      obtain ⟨next, hPut⟩ := (exists_put_iff base).mpr ⟨_, h.present key value List.mem_cons_self⟩
      exact ⟨next, .put hPut, (follows_cons_put hPut hAbsent).mp h⟩
    · exact ⟨base, .skip hKnown, (follows_cons_unknown hKnown).mp h⟩
  · rintro ⟨next, hStep, h⟩
    cases hStep with
    | skip hKnown => exact (follows_cons_unknown hKnown).mpr h
    | put hPut => exact (follows_cons_put hPut hAbsent).mpr h

/-- Putting in all entries of a description makes the settings that follow it, if there are any. -/
theorem putAll_eq_ok_iff (hNames : (entries.map (·.1)).Nodup) :
    base.putAll entries = .ok settings ↔ Follows entries base settings := by
  induction entries generalizing base with
  | nil => rw [follows_nil, putAll, Except.ok.injEq]
  | cons entry more ih =>
    obtain ⟨hName, hMore⟩ := List.nodup_cons.mp hNames
    rw [putAll_cons, follows_cons hName]
    exact exists_congr fun next => and_congr_right fun _ => ih hMore

theorem isNone_ofName?_iff {name : String} : (Key.ofName? name).isNone = true ↔ ¬IsKnown name := by
  rw [Option.isNone_iff_eq_none, Key.ofName?_eq_none_iff]

theorem ofValue_unknown (path : String) {before after : List (String × Value)} {name : String}
    (hBefore : ∀ entry ∈ before, IsKnown entry.1) (hName : ¬IsKnown name) :
    ofValue path (.object (before ++ (name, value) :: after)) =
      .error (.unknownSetting name ((suggest? name).map Key.name)) := by
  have hFind : (before ++ (name, value) :: after).find? (fun entry => (Key.ofName? entry.1).isNone) =
      some (name, value) := by
    rw [List.find?_eq_some_iff_append]
    refine ⟨isNone_ofName?_iff.mpr hName, before, after, rfl, fun entry hEntry => ?_⟩
    rw [Bool.not_eq_true', ← Bool.not_eq_true, isNone_ofName?_iff, not_not]
    exact hBefore entry hEntry
  rw [ofValue, hFind]

theorem ofValue_known (path : String) (h : ∀ entry ∈ entries, IsKnown entry.1) :
    ofValue path (.object entries) = .ok settings ↔ putAll {} entries = .ok settings := by
  have hFind : entries.find? (fun entry => (Key.ofName? entry.1).isNone) = none := by
    rw [List.find?_eq_none]
    intro entry hEntry hNone
    exact isNone_ofName?_iff.mp hNone (h entry hEntry)
  rw [ofValue, hFind]
  cases putAll {} entries <;> simp [Except.mapError]

end ScriptLint.Settings
