import ScriptLint.Proofs.Config.Settings

/-!
# Writing settings and decoding them

Settings that were decoded are written as a value that describes them: what is left out is left at its default, and the
indentation is none that cannot be read back.
-/
namespace ScriptLint.Settings
set_option autoImplicit false

variable {settings base next : Settings} {key : Key} {value : Value} {entries : List (String × Value)}

def write (settings : Settings) : Key → Option Value
  | .xmlMode => settings.xmlMode.map .bool
  | .indent => some settings.indent.toValue
  | .reportBadIndent => some (.bool settings.reportBadIndent)
  | .xmlExtensions => some (.array (settings.xmlExtensions.map .string))
  | .mediaTypes => some (.array (settings.mediaTypes.map .string))

def written (settings : Settings) : List (String × Value) :=
  Key.all.filterMap fun key => (settings.write key).map fun value => (key.name, value)

def IsReadable (settings : Settings) : Prop :=
  settings.indent.Fits ∧ settings.indent ≠ .relative (-2 ^ 63)

theorem toValue_eq_written (settings : Settings) : settings.toValue = .object settings.written := by
  obtain ⟨mode, indent, report, extensions, types⟩ := settings
  cases mode <;> rfl

theorem mem_written {entry : String × Value} :
    entry ∈ settings.written ↔ ∃ key : Key, settings.write key = some entry.2 ∧ key.name = entry.1 := by
  have hAll (key : Key) : key ∈ Key.all := by cases key <;> decide
  simp only [written, List.mem_filterMap, Option.map_eq_some_iff, hAll, true_and, Prod.ext_iff]
  constructor
  · rintro ⟨key, value, hWrite, hName, rfl⟩
    exact ⟨key, hWrite, hName⟩
  · rintro ⟨key, hWrite, hName⟩
    exact ⟨key, entry.2, hWrite, hName, rfl⟩

theorem mem_written_name : (key.name, value) ∈ settings.written ↔ settings.write key = some value := by
  rw [mem_written]
  constructor
  · rintro ⟨other, hWrite, hName⟩
    obtain rfl := Key.name_injective hName
    exact hWrite
  · intro hWrite
    exact ⟨key, hWrite, rfl⟩

theorem nodup_written (settings : Settings) : (settings.written.map (·.1)).Nodup := by
  have hAll : Key.all.Nodup := by decide
  rw [List.Nodup, List.pairwise_map]
  refine List.Pairwise.filterMap _ ?_ hAll
  intro key other hNe entry hEntry entry' hEntry'
  obtain ⟨value, -, rfl⟩ := Option.map_eq_some_iff.mp hEntry
  obtain ⟨value', -, rfl⟩ := Option.map_eq_some_iff.mp hEntry'
  exact Key.name_injective.ne hNe

theorem follows_written (h : settings.IsReadable) : Follows settings.written {} settings := by
  constructor
  · intro key value hMem
    rw [mem_written_name] at hMem
    cases key with
    | xmlMode =>
      obtain ⟨b, hMode, rfl⟩ := Option.map_eq_some_iff.mp hMem
      exact .inr ⟨b, rfl, hMode⟩
    | indent =>
      obtain rfl := Option.some.inj hMem
      exact Indent.describes_toValue h.1 h.2
    | reportBadIndent | xmlExtensions | mediaTypes => exact (Option.some.inj hMem).symm
  · intro key hAbsent
    simp only [mem_written_name] at hAbsent
    cases key with
    | xmlMode => exact Option.map_eq_none_iff.mp (Option.eq_none_iff_forall_ne_some.mpr hAbsent)
    | indent | reportBadIndent | xmlExtensions | mediaTypes => exact absurd rfl (hAbsent _)

theorem isReadable_default : ({} : Settings).IsReadable := ⟨trivial, by simp⟩

theorem IsReadable.step {entry : String × Value} (h : base.IsReadable) (hStep : Step base entry next) :
    next.IsReadable := by
  cases hStep with
  | skip => exact h
  | @put key value _ hPut =>
    obtain ⟨hDenotes, hOther⟩ := put_eq_ok_iff.mp hPut
    by_cases hKey : key = .indent
    · subst hKey
      exact Indent.Describes.fits hDenotes
    · have hIndent : next.indent = base.indent := hOther .indent (Ne.symm hKey)
      rw [IsReadable, hIndent]
      exact h

theorem IsReadable.putAll (h : base.IsReadable) (hPut : base.putAll entries = .ok settings) : settings.IsReadable := by
  induction entries generalizing base with
  | nil =>
    obtain rfl := Except.ok.inj hPut
    exact h
  | cons entry more ih =>
    obtain ⟨next, hStep, hMore⟩ := putAll_cons.mp hPut
    exact ih (h.step hStep) hMore

theorem isReadable_of_ofValue {path : String} (h : ofValue path value = .ok settings) : settings.IsReadable := by
  cases value with
  | null =>
    obtain rfl := Except.ok.inj h
    exact isReadable_default
  | object entries =>
    rw [ofValue] at h
    split at h
    · cases h
    · cases hPut : putAll {} entries with
      | error fault =>
        rw [hPut] at h
        cases h
      | ok last =>
        rw [hPut] at h
        obtain rfl := Except.ok.inj h
        exact isReadable_default.putAll hPut
  | bool | int | float | string | array => cases h

theorem ofValue_eq_ok_iff (path : String) (hNames : (entries.map (·.1)).Nodup)
    (hKnown : ∀ entry ∈ entries, IsKnown entry.1) :
    ofValue path (.object entries) = .ok settings ↔ Follows entries {} settings := by
  rw [ofValue_known path hKnown, putAll_eq_ok_iff hNames]

theorem ofValue_toValue (path : String) (h : settings.IsReadable) : ofValue path settings.toValue = .ok settings := by
  rw [toValue_eq_written, ofValue_eq_ok_iff path (nodup_written settings)]
  · exact follows_written h
  · intro entry hEntry
    obtain ⟨key, -, hName⟩ := mem_written.mp hEntry
    exact ⟨key, hName⟩

/-- Unknown names are reported first, and in their absence each setting depends on the value under its name alone, in
whatever order they come. Decoded settings can be written and decoded again. -/
theorem ofValue_canonical (path : String) :
    (∀ entries : List (String × Value), (entries.map (·.1)).Nodup →
      (∀ before name value after, entries = before ++ (name, value) :: after → (∀ entry ∈ before, IsKnown entry.1) →
        ¬IsKnown name →
          ofValue path (.object entries) = .error (.unknownSetting name ((suggest? name).map Key.name))) ∧
      ((∀ entry ∈ entries, IsKnown entry.1) →
        ((∃ settings, ofValue path (.object entries) = .ok settings) ↔ ∀ entry ∈ entries, IsTyped entry) ∧
        (∀ settings, ofValue path (.object entries) = .ok settings ↔ Follows entries {} settings) ∧
        ∀ other : List (String × Value), other.Perm entries → ∀ settings,
          ofValue path (.object other) = .ok settings ↔ ofValue path (.object entries) = .ok settings)) ∧
    ∀ value settings, ofValue path value = .ok settings → ofValue path settings.toValue = .ok settings := by
  constructor
  · intro entries hNames
    constructor
    · rintro before name value after rfl hBefore hName
      exact ofValue_unknown path hBefore hName
    · intro hKnown
      refine ⟨?_, fun settings => ofValue_eq_ok_iff path hNames hKnown, ?_⟩
      · rw [← exists_putAll_iff]
        exact exists_congr fun settings => ofValue_known path hKnown
      · intro other hPerm settings
        have hOther : (other.map (·.1)).Nodup := (hPerm.map (·.1)).nodup_iff.mpr hNames
        rw [ofValue_eq_ok_iff path hNames hKnown, ofValue_eq_ok_iff path hOther]
        · exact follows_congr fun key value => hPerm.mem_iff
        · intro entry hEntry
          exact hKnown entry (hPerm.mem_iff.mp hEntry)
  · intro value settings h
    exact ofValue_toValue path (isReadable_of_ofValue h)

theorem ofValue_canonical_reordered :
    let entries := [("indent", .string " +2 "), ("report-bad-indent", .bool true), ("xml-mode", .null)]
    let settings : Settings := { indent := .relative 2, reportBadIndent := true }
    (entries.map (·.1)).Nodup ∧ (∀ entry ∈ entries, IsKnown entry.1) ∧
      ofValue "a.json" (.object entries) = .ok settings ∧ ofValue "a.json" (.object entries.reverse) = .ok settings ∧
      ofValue "a.json" settings.toValue = .ok settings ∧
      ofValue "a.json" (.object [("indent", .bool true), ("indnet", .null), ("plugins", .null)]) =
        .error (.unknownSetting "indnet" ((suggest? "indnet").map Key.name)) := by
  intro entries settings
  obtain ⟨hObject, hWritten⟩ := ofValue_canonical "a.json"
  have hNames : (entries.map (·.1)).Nodup := by decide
  have hKnown : ∀ entry ∈ entries, IsKnown entry.1 := by
    simp only [entries, List.forall_mem_cons]
    exact ⟨⟨.indent, rfl⟩, ⟨.reportBadIndent, rfl⟩, ⟨.xmlMode, rfl⟩, fun _ h => absurd h List.not_mem_nil⟩
  have hOk : ofValue "a.json" (.object entries) = .ok settings := rfl
  have hUnknown : ¬IsKnown "indnet" := isNone_ofName?_iff.mp (by decide)
  refine ⟨hNames, hKnown, hOk, ?_, hWritten _ _ hOk, ?_⟩
  · obtain ⟨-, -, hReordered⟩ := (hObject entries hNames).2 hKnown
    exact (hReordered entries.reverse entries.reverse_perm settings).mpr hOk
  · refine (hObject _ (by decide)).1 [("indent", .bool true)] "indnet" .null _ rfl ?_ hUnknown
    exact List.forall_mem_singleton.mpr ⟨.indent, rfl⟩

end ScriptLint.Settings
