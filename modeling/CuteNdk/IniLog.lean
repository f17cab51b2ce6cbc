import CuteNdk.IniDump
import CuteNdk.LogConfig

/-! log_manager::get_config_attribe reads the dictionary of iniparser_load through
iniparser_getstring. What it comes to is a lookup in the texts of that dictionary. -/
namespace CuteNdk.Ini
open Lib.CString

/- The keys with a text. -/
def texts (d : Dictionary) : Log.Dictionary := d.keys.filterMap fun e => e.2.map fun v => (e.1,v)

/- The name of an attribute as snprintf leaves it. -/
def attribeName (section_ key : Str) (attr : Option Str) : Str :=
  (section_ ++ ':' :: key ++ attr.elim [] fun attr => '.' :: attr).take (Log.maxModuleNameLen - 1)

/- strlen of INI_INVALID_KEY is undefined. -/
def getConfigAttribe (ini : Dictionary) (section_ key : Str) (attr : Option Str) : Option (Option Str) :=
  (iniparserGetstring ini (attribeName section_ key attr) .null).bind fun value =>
    match value with
    | .null => some none
    | .invalid => none
    | .text s => some (if 0 < s.length then some s else none)

section Texts
variable {d : Dictionary} {section_ key : Str} {attr : Option Str}

/- The first entry of a key is its only one. -/
theorem lookupOnly {l : List (Str × Str)} (once : ∀ v w, (key,v) ∈ l → (key,w) ∈ l → v = w) (v : Str) :
    l.lookup key = some v ↔ (key,v) ∈ l := by
  induction l with
  | nil => simp
  | cons e l ih =>
    obtain ⟨k,w⟩ := e
    have rest := ih fun v w first second => once v w (List.mem_cons_of_mem _ first) (List.mem_cons_of_mem _ second)
    by_cases here : key = k
    · subst here
      rw [List.lookup_cons_self]
      constructor
      · intro same
        cases same
        exact List.mem_cons_self
      · intro mem
        rw [once v w mem List.mem_cons_self]
    · rw [List.lookup_cons,beq_eq_false_iff_ne.2 here,rest,List.mem_cons]
      constructor
      · exact .inr
      · rintro (same | mem)
        · exact absurd (congrArg Prod.fst same) here
        · exact mem

theorem textBinding (well : d.Well) {v : Str} : (key,v) ∈ texts d ↔ d.bindings key = some (some v) := by
  unfold texts
  rw [List.mem_filterMap]
  constructor
  · rintro ⟨e,mem,text⟩
    obtain ⟨w,some_,same⟩ := Option.map_eq_some_iff.1 text
    cases same
    rw [← some_]
    exact (keyBinding well).1 mem
  · intro bound
    exact ⟨(key,some v),(keyBinding well).2 bound,rfl⟩

theorem lookupTexts (well : d.Well) : (texts d).lookup key = (d.bindings key).join := by
  have once : ∀ v w, (key,v) ∈ texts d → (key,w) ∈ texts d → v = w := by
    intro v w first second
    have same := ((textBinding well).1 first).symm.trans ((textBinding well).1 second)
    exact Option.some.inj (Option.some.inj same)
  refine Option.ext fun v => ?_
  rw [lookupOnly once,textBinding well,Option.join_eq_some_iff]

theorem attribeShort : (attribeName section_ key attr).length ≤ asciiLineSz := by
  have short := List.length_take_le (Log.maxModuleNameLen - 1) (section_ ++ ':' :: key ++ attr.elim [] fun attr => '.' :: attr)
  unfold attribeName
  exact short.trans (by decide)

/- The attribute of the model of log_manager is a lookup. -/
theorem attribeLookup (well : d.Well) : Log.getConfigAttribe (texts d) section_ key attr =
    (d.bindings (strlwc (attribeName section_ key attr))).join.filter fun value => value ≠ [] := by
  have looked : Log.getConfigAttribe (texts d) section_ key attr =
      ((texts d).lookup ((attribeName section_ key attr).map Char.toLower)).filter fun value => value ≠ [] := rfl
  rw [looked,lookupTexts well,strlwc,List.take_of_length_le attribeShort]

theorem attribeTexts (well : d.Well) :
    getConfigAttribe d section_ key attr = some (Log.getConfigAttribe (texts d) section_ key attr) := by
  unfold getConfigAttribe
  rw [attribeLookup well,iniparserGetstring,Dictionary.getBinding well,Option.bind_some]
  cases d.bindings (strlwc (attribeName section_ key attr)) with
  | none => rfl
  | some v =>
    cases v with
    | none => rfl
    | some s => cases s <;> rfl

end Texts

/- A file that is not refused: what log_manager takes for an attribute is the text its lines say, and
an empty text is none. -/
theorem configSays (before : Char) {L : List (List Str)} {m : Meaning} (fits : ∀ ps ∈ L, Fits ps) (blank : Blanks before L)
    (few : L.length ≤ 0x8000000) (said : meaning .start L = some m) (read : ¬ErrorLast L) :
    ∃ d, iniparserLoad granted before (some (L.flatMap written)) = some (some d) ∧ ∀ section_ key attr,
      getConfigAttribe d section_ key attr = some (Log.getConfigAttribe (texts d) section_ key attr) ∧
      Log.getConfigAttribe (texts d) section_ key attr =
        (m.bindings (strlwc (attribeName section_ key attr))).join.filter fun value => value ≠ [] := by
  have loads := loadBegins before [] fits blank few
  rw [List.append_nil,said] at loads
  obtain ⟨s,fuel,loads,there,represents,enough⟩ := loads
  have errs : m.errs = 0 := by
    by_contra some_
    exact ((meaningErrs said).1 some_).elim (fun both => both.1 rfl) read
  have zero : s.errs = 0 := by
    rw [represents.errs,errs]
    rfl
  refine ⟨s.dict,loads.trans ((loadEnd there enough).trans (if_pos zero)),fun section_ key attr => ⟨?_,?_⟩⟩
  · exact attribeTexts represents.grown.well
  · rw [attribeLookup represents.grown.well,represents.bindings]

/- The types of a module, from the file to the bits. -/
theorem configSaysType : ∃ d, iniparserLoad granted 'x' (some "[Modules]\nnet.__type__ = TRACE|DEBUG ; both\n".toList) = some (some d) ∧
    getConfigAttribe d "modules".toList "net".toList (some "__type__".toList) = some (some "TRACE|DEBUG".toList) := by
  have fits : ∀ ps ∈ [["[Modules]".toList],["net.__type__ = TRACE|DEBUG ; both".toList]], Fits ps := by
    intro ps mem
    simp only [List.mem_cons,List.not_mem_nil,or_false] at mem
    rcases mem with rfl | rfl <;> exact ⟨plainPieces (by decide),by decide,by decide⟩
  obtain ⟨m,said,errs,value⟩ : ∃ m, meaning .start [["[Modules]".toList],["net.__type__ = TRACE|DEBUG ; both".toList]] = some m ∧
      m.errs = 0 ∧ m.bindings (strlwc (attribeName "modules".toList "net".toList (some "__type__".toList))) =
        some (some "TRACE|DEBUG".toList) := ⟨_,rfl,rfl,by decide⟩
  obtain ⟨d,loads,taken⟩ := configSays 'x' fits (fun _ => by decide) (by decide) said fun last =>
    (meaningErrs said).2 (.inr last) errs
  refine ⟨d,loads,?_⟩
  rw [(taken _ _ _).1,(taken _ _ _).2,value]
  rfl

end CuteNdk.Ini
