import CuteNdk.IniParser

/-! iniparser_load on a file of proper lines: what the lines say, one after another, is what the
dictionary holds in the end. A line that cannot be read is counted in errs, and the next line that
sets an entry starts the count anew. -/
namespace CuteNdk.Ini
open Lib.CString

/- Pieces that go on in the next line. -/
def goesOn (ps : List Str) : Str := ps.flatMap fun p => p ++ ['\\','\n']

/- A line as it is written: all of its pieces but the last end in a backslash. -/
def written (ps : List Str) : Str := goesOn ps.dropLast ++ (ps.getLastD [] ++ ['\n'])

/- The line the pieces make. -/
def logical (ps : List Str) : Str := rstrip ps.flatten

/- A line fgets reads whole, piece by piece. -/
structure Fits (ps : List Str) : Prop where
  plain : ∀ p ∈ ps, ∀ c ∈ p, c ≠ '\n' ∧ c ≠ nul
  short : ps.flatten.length ≤ 1021
  ends : (logical ps).getLast? ≠ some '\\'

/- To be decided for a given text. -/
theorem plainPieces {ps : List Str} (all : ps.all (fun p => p.all fun c => decide (c ≠ '\n' ∧ c ≠ nul)) = true) :
    ∀ p ∈ ps, ∀ c ∈ p, c ≠ '\n' ∧ c ≠ nul :=
  fun p mem c there => of_decide_eq_true (List.all_eq_true.1 (List.all_eq_true.1 all p mem) c there)

/- What the lines so far say. -/
structure Meaning where
  section_ : Str
  bindings : Str → Option (Option Str)
  errs : Nat

def Meaning.start : Meaning := ⟨[],fun _ => none,0⟩

/- One more line. The entry of a section is null, and none is the write outside tmp. -/
def Meaning.line (m : Meaning) (line : Str) : Option Meaning :=
  match iniparserLine m.section_ line with
  | .empty => some m
  | .comment => some m
  | .section_ name => some ⟨name,Function.update m.bindings name (some none),0⟩
  | .value key value =>
    if asciiLineSz < m.section_.length + 1 + key.length then none
    else some ⟨m.section_,Function.update m.bindings (m.section_ ++ ':' :: key) (some (some value)),0⟩
  | .error => some { m with errs := m.errs + 1 }

def meaning (m : Meaning) (L : List (List Str)) : Option Meaning := L.foldlM (fun m ps => m.line (logical ps)) m

section Turns
variable {before : Char} {s : Loading} {kept p rest : Str}

theorem fgetsLine {size : Nat} (plain : '\n' ∉ p) (short : p.length + 1 ≤ size - 1) :
    fgets size (p ++ '\n' :: rest) = some (p ++ ['\n'],rest) := by
  have some_ : p ++ '\n' :: rest ≠ [] := by simp
  have most : (p ++ '\n' :: rest).take (size - 1) = p ++ '\n' :: rest.take (size - 1 - (p.length + 1)) := by
    have split : p ++ '\n' :: rest = (p ++ ['\n']) ++ rest := by simp
    rw [split,List.take_append,List.take_of_length_le (by simpa using short)]
    simp
  have word : (p ++ '\n' :: rest.take (size - 1 - (p.length + 1))).takeWhile (fun c => c ≠ '\n') = p := by
    rw [List.takeWhile_append_of_pos (fun c mem => by simpa using fun same : c = '\n' => plain (same ▸ mem))]
    simp
  have chunk : (p ++ '\n' :: rest.take (size - 1 - (p.length + 1))).take (p.length + 1) = p ++ ['\n'] := by
    rw [List.take_length_add_append]
    rfl
  unfold fgets
  rw [if_neg some_]
  simp only [most,word,chunk]
  simp

/- The text in line is as long as what was kept and what was read. -/
theorem bufferWhole {t : Str} (clean : ∀ c ∈ t, c ≠ nul) : (t.takeWhile fun c => c ≠ nul) = t :=
  List.takeWhile_eq_self_iff.2 fun c mem => by simpa using clean c mem

theorem rstripLine (t : Str) : rstrip (t ++ ['\n']) = rstrip t :=
  List.rdropWhile_concat_pos _ _ _ (by decide)

theorem rstripSlash (t : Str) : rstrip (t ++ ['\\']) = t ++ ['\\'] :=
  List.rdropWhile_concat_neg _ _ _ (by decide)

/- A piece that goes on is kept without its backslash. -/
theorem pieceTurn (allocs : Nat → Grants) (clean : ∀ c ∈ kept ++ p, c ≠ nul) :
    loadTurn allocs before s kept (p ++ ['\\','\n']) =
      some (.next { s with lineno := s.lineno + 1, kept := some (kept ++ p) }) := by
  have text : kept ++ (p ++ ['\\','\n']) = kept ++ p ++ ['\\'] ++ ['\n'] := by simp
  have whole : ∀ c ∈ kept ++ p ++ ['\\'] ++ ['\n'], c ≠ nul := by
    intro c mem
    rcases List.mem_append.1 mem with mem | mem
    · rcases List.mem_append.1 mem with mem | mem
      · exact clean c mem
      · rw [List.mem_singleton.1 mem]
        decide
    · rw [List.mem_singleton.1 mem]
      decide
  unfold loadTurn
  simp only [text,bufferWhole whole,List.getLast?_concat,Option.getD_some,rstripLine,rstripSlash]
  simp

/- The last piece, and the whole line goes to the switch. -/
theorem lineTurn (allocs : Nat → Grants) (clean : ∀ c ∈ kept ++ p, c ≠ nul)
    (ends : (rstrip (kept ++ p)).getLast? ≠ some '\\') (blank : rstrip (kept ++ p) = [] → before ≠ '\\') :
    loadTurn allocs before s kept (p ++ ['\n']) =
      (settle allocs { s with lineno := s.lineno + 1 } (rstrip (kept ++ p))).map fun s =>
        if s.errs < 0 then .stop { s with kept := some [] } else .next { s with kept := some [] } := by
  have text : kept ++ (p ++ ['\n']) = kept ++ p ++ ['\n'] := by simp
  have whole : ∀ c ∈ kept ++ p ++ ['\n'], c ≠ nul := by
    intro c mem
    rcases List.mem_append.1 mem with mem | mem
    · exact clean c mem
    · rw [List.mem_singleton.1 mem]
      decide
  have beyond : (rstrip (kept ++ p)).getLast?.getD before ≠ '\\' := by
    cases last : (rstrip (kept ++ p)).getLast? with
    | none => exact blank (List.getLast?_eq_none_iff.1 last)
    | some c =>
      rintro rfl
      exact ends last
  unfold loadTurn
  simp only [text,bufferWhole whole,List.getLast?_concat,Option.getD_some,rstripLine]
  rw [if_neg (fun other => other rfl),if_neg beyond]

/- What comes of a turn. -/
def afterTurn (allocs : Nat → Grants) (before : Char) (fuel : Nat) (s : Loading) (rest : Str) : Turn → Option (Option Dictionary)
  | .tooLong => (dictionaryDel s.dict).map fun _ => none
  | .stop s => finish s
  | .next s => loadFrom allocs before fuel s rest

theorem loadTurns (allocs : Nat → Grants) (fuel : Nat) (there : s.kept = some kept) (plain : '\n' ∉ p)
    (short : kept.length + p.length + 2 ≤ asciiLineSz) :
    loadFrom allocs before (fuel + 1) s (p ++ '\n' :: rest) =
      (loadTurn allocs before s kept (p ++ ['\n'])).bind (afterTurn allocs before fuel s rest) := by
  have read : fgets (asciiLineSz - kept.length) (p ++ '\n' :: rest) = some (p ++ ['\n'],rest) :=
    fgetsLine plain (by omega)
  rw [loadFrom,there,Option.getD_some,read]
  refine Option.bind_congr fun turn _ => ?_
  cases turn <;> rfl

end Turns

/- calloc and malloc give what they are asked for. -/
def granted : Nat → Grants := fun _ => .all

/- Two states of the loop that differ in where the reading is. -/
def SameEntries (s t : Loading) : Prop := t.dict = s.dict ∧ t.section_ = s.section_ ∧ t.errs = s.errs

/- The loop behind the switch. -/
def afterLine (before : Char) (fuel : Nat) (rest : Str) (s : Loading) : Option (Option Dictionary) :=
  if s.errs < 0 then finish { s with kept := some [] } else loadFrom granted before fuel { s with kept := some [] } rest

section Lines
variable {before : Char} {s : Loading} {kept p rest : Str} {fuel : Nat}

theorem cleanPiece (clean : ∀ c ∈ kept, c ≠ nul) (plain : ∀ c ∈ p, c ≠ '\n' ∧ c ≠ nul) : ∀ c ∈ kept ++ p, c ≠ nul := by
  intro c mem
  rcases List.mem_append.1 mem with mem | mem
  · exact clean c mem
  · exact (plain c mem).2

theorem loadLast (before : Char) (rest : Str) (fuel : Nat) (there : s.kept = some kept) (clean : ∀ c ∈ kept, c ≠ nul) (plain : ∀ c ∈ p, c ≠ '\n' ∧ c ≠ nul)
    (short : (kept ++ p).length ≤ 1021) (ends : (rstrip (kept ++ p)).getLast? ≠ some '\\')
    (blank : rstrip (kept ++ p) = [] → before ≠ '\\') :
    loadFrom granted before (fuel + 1) s (p ++ '\n' :: rest) =
      (settle granted { s with lineno := s.lineno + 1 } (rstrip (kept ++ p))).bind (afterLine before fuel rest) := by
  have noEnd : '\n' ∉ p := fun mem => (plain _ mem).1 rfl
  rw [List.length_append] at short
  rw [loadTurns granted fuel there noEnd (by unfold asciiLineSz; omega),
    lineTurn granted (cleanPiece clean plain) ends blank,Option.bind_map]
  refine Option.bind_congr fun t _ => ?_
  simp only [Function.comp_apply,afterLine]
  split <;> rfl

theorem loadPiece (there : s.kept = some kept) (clean : ∀ c ∈ kept, c ≠ nul) (plain : ∀ c ∈ p, c ≠ '\n' ∧ c ≠ nul)
    (short : (kept ++ p).length ≤ 1021) :
    loadFrom granted before (fuel + 1) s (p ++ '\\' :: '\n' :: rest) =
      loadFrom granted before fuel { s with lineno := s.lineno + 1, kept := some (kept ++ p) } rest := by
  have noEnd : '\n' ∉ p ++ ['\\'] := by
    intro mem
    rcases List.mem_append.1 mem with mem | mem
    · exact (plain _ mem).1 rfl
    · exact absurd (List.mem_singleton.1 mem) (by decide)
  have room : kept.length + (p ++ ['\\']).length + 2 ≤ asciiLineSz := by
    rw [List.length_append] at short
    rw [List.length_append,List.length_singleton]
    unfold asciiLineSz
    omega
  have split : p ++ '\\' :: '\n' :: rest = (p ++ ['\\']) ++ '\n' :: rest := by simp
  rw [split,loadTurns granted fuel there noEnd room,List.append_assoc]
  exact congrArg (fun turn => Option.bind turn (afterTurn granted before fuel s rest))
    (pieceTurn granted (cleanPiece clean plain))

/- The loop takes pieces that go on into line. -/
theorem loadPieces (before : Char) (rest : Str) (ps : List Str) (there : s.kept = some kept) (clean : ∀ c ∈ kept, c ≠ nul)
    (plain : ∀ p ∈ ps, ∀ c ∈ p, c ≠ '\n' ∧ c ≠ nul) (short : (kept ++ ps.flatten).length ≤ 1021)
    (enough : (goesOn ps ++ rest).length < fuel) :
    ∃ fuel' t, rest.length < fuel' ∧ SameEntries s t ∧ t.kept = some (kept ++ ps.flatten) ∧
      loadFrom granted before fuel s (goesOn ps ++ rest) = loadFrom granted before fuel' t rest := by
  induction ps generalizing s kept fuel with
  | nil => exact ⟨fuel,s,enough,⟨rfl,rfl,rfl⟩,by simpa using there,rfl⟩
  | cons p ps ih =>
    have flat : kept ++ (p :: ps).flatten = (kept ++ p) ++ ps.flatten := by simp
    have text : goesOn (p :: ps) ++ rest = p ++ '\\' :: '\n' :: (goesOn ps ++ rest) := by simp [goesOn]
    have plain_ := plain p List.mem_cons_self
    rw [flat] at short ⊢
    rw [text] at enough ⊢
    obtain ⟨fuel,rfl⟩ := Nat.exists_eq_succ_of_ne_zero (Nat.ne_of_gt (Nat.zero_lt_of_lt enough))
    have less : (goesOn ps ++ rest).length < fuel := by
      rw [List.length_append,List.length_cons,List.length_cons] at enough
      omega
    rw [loadPiece there clean plain_ (by rw [List.length_append] at short; omega)]
    obtain ⟨fuel',t,left,same,kept_,loads⟩ := ih (s := { s with lineno := s.lineno + 1, kept := some (kept ++ p) }) rfl
      (cleanPiece clean plain_) (fun p' mem => plain p' (List.mem_cons_of_mem p mem)) short less
    exact ⟨fuel',t,left,same,kept_,loads⟩

/- The pieces of a line but the last, and the last. -/
theorem lastPiece (ps : List Str) : ps.dropLast.flatten ++ ps.getLastD [] = ps.flatten := by
  induction ps using List.reverseRecOn with
  | nil => rfl
  | append_singleton ps p => simp

/- The loop comes to the switch with the line the pieces make. -/
theorem loadWritten (before : Char) (rest : Str) (ps : List Str) (there : s.kept = some []) (fit : Fits ps) (blank : logical ps = [] → before ≠ '\\')
    (enough : (written ps ++ rest).length < fuel) :
    ∃ fuel' t, rest.length < fuel' ∧ SameEntries s t ∧ loadFrom granted before fuel s (written ps ++ rest) =
      (settle granted t (logical ps)).bind (afterLine before fuel' rest) := by
  have whole := lastPiece ps
  have text : written ps ++ rest = goesOn ps.dropLast ++ (ps.getLastD [] ++ '\n' :: rest) := by simp [written]
  have early : ∀ p ∈ ps.dropLast, ∀ c ∈ p, c ≠ '\n' ∧ c ≠ nul := fun p mem => fit.plain p (List.dropLast_subset ps mem)
  have last : ∀ c ∈ ps.getLastD [], c ≠ '\n' ∧ c ≠ nul := by
    intro c mem
    cases ps with
    | nil => cases mem
    | cons p ps =>
      refine fit.plain _ ?_ c mem
      rw [List.getLastD_cons]
      exact List.getLastD_mem_cons
  have short := fit.short
  rw [← whole,List.length_append] at short
  rw [text] at enough ⊢
  obtain ⟨fuel₁,t,left,same,kept,loads⟩ := loadPieces before (ps.getLastD [] ++ '\n' :: rest)
    ps.dropLast there (fun c mem => absurd mem List.not_mem_nil) early (by rw [List.nil_append]; omega) enough
  rw [List.nil_append] at kept
  obtain ⟨fuel₂,rfl⟩ := Nat.exists_eq_succ_of_ne_zero (Nat.ne_of_gt (Nat.zero_lt_of_lt left))
  have clean : ∀ c ∈ ps.dropLast.flatten, c ≠ nul := by
    intro c mem
    obtain ⟨p,piece,mem⟩ := List.mem_flatten.1 mem
    exact (early p piece c mem).2
  have logical_ : rstrip (ps.dropLast.flatten ++ ps.getLastD []) = logical ps := congrArg rstrip whole
  have ends := loadLast before rest fuel₂ kept clean last
    (by rw [whole]; exact fit.short) (by rw [logical_]; exact fit.ends) (by rw [logical_]; exact blank)
  rw [List.length_append,List.length_cons] at left
  rw [logical_] at ends
  exact ⟨fuel₂,{ t with lineno := t.lineno + 1 },by omega,same,loads.trans ends⟩

end Lines

/- The state of the loop after the lines with that meaning. -/
structure Represents (s : Loading) (m : Meaning) (calls : Nat) : Prop where
  section_ : s.section_ = m.section_
  errs : s.errs = m.errs
  bindings : s.dict.bindings = m.bindings
  grown : s.dict.Grown dictMinSz calls

section Settle
variable {s : Loading} {m : Meaning} {calls : Nat}

theorem setGranted (h : Represents s m calls) (few : calls < 0x8000000) (key : Str) (val : Option Str) :
    ∃ d, dictionarySet .all s.dict key val = some (0,d) ∧ d.Grown dictMinSz (calls + 1) ∧
      d.bindings = Function.update m.bindings key (some val) := by
  obtain ⟨d,does,grown⟩ := h.grown.step (show Op.granted (.set .all key val) from rfl) few
  obtain ⟨⟨r,d'⟩,set_,rfl⟩ := Option.map_eq_some_iff.1 does
  obtain ⟨rfl,_,bindings,_⟩ := Dictionary.setWell h.grown.well set_ grown.well.whole
  refine ⟨d',set_,grown,?_⟩
  have copied : val.bind (xstrdup Grants.all.valText) = val := by cases val <;> rfl
  rw [bindings,h.bindings]
  simp only [bind,Grants.all,or_true,if_true]
  exact congrArg (fun v => Function.update m.bindings key (some v)) copied

/- The switch does what the line says. -/
theorem settleMeans (h : Represents s m calls) (few : calls < 0x8000000) (line : Str) :
    match m.line line with
    | none => settle granted s line = none
    | some m' => ∃ s', settle granted s line = some s' ∧ Represents s' m' (calls + 1) := by
  have later : s.dict.Grown dictMinSz (calls + 1) := by
    have counted := h.grown.counted
    have size := h.grown.size
    exact ⟨h.grown.well,by omega,by omega⟩
  unfold Meaning.line settle
  rw [h.section_]
  cases iniparserLine m.section_ line with
  | empty => exact ⟨s,rfl,h.section_,h.errs,h.bindings,later⟩
  | comment => exact ⟨s,rfl,h.section_,h.errs,h.bindings,later⟩
  | error =>
    refine ⟨_,rfl,rfl,?_,h.bindings,later⟩
    simp only [h.errs]
    omega
  | section_ name =>
    obtain ⟨d,set_,grown,bindings⟩ := setGranted h few name none
    simp only [granted,set_,Option.map_some]
    exact ⟨_,rfl,rfl,rfl,bindings,grown⟩
  | value key value =>
    simp only
    by_cases beyond : asciiLineSz < m.section_.length + 1 + key.length
    · simp only [if_pos beyond]
    · obtain ⟨d,set_,grown,bindings⟩ := setGranted h few (m.section_ ++ ':' :: key) (some value)
      simp only [if_neg beyond,granted,set_,Option.map_some]
      exact ⟨_,rfl,rfl,rfl,bindings,grown⟩

theorem sameRepresents {t : Loading} (h : Represents s m calls) (same : SameEntries s t) : Represents t m calls := by
  obtain ⟨dict,section_,errs⟩ := same
  exact ⟨section_.trans h.section_,errs.trans h.errs,by rw [dict]; exact h.bindings,by rw [dict]; exact h.grown⟩

end Settle

def Blanks (before : Char) (L : List (List Str)) : Prop := (∃ ps ∈ L, logical ps = []) → before ≠ '\\'

/- The loop is behind the lines, with what they say. -/
structure After (before : Char) (fuel : Nat) (s : Loading) (text rest : Str) (m : Meaning) (calls : Nat) (s' : Loading)
    (fuel' : Nat) : Prop where
  loads : loadFrom granted before fuel s (text ++ rest) = loadFrom granted before fuel' s' rest
  kept : s'.kept = some []
  represents : Represents s' m calls
  enough : rest.length < fuel'

theorem loadLines (before : Char) {L : List (List Str)} (rest : Str) (fits : ∀ ps ∈ L, Fits ps) (blank : Blanks before L)
    {s : Loading} {m : Meaning} {calls fuel : Nat} (there : s.kept = some []) (h : Represents s m calls)
    (few : calls + L.length ≤ 0x8000000) (enough : (L.flatMap written ++ rest).length < fuel) :
    match meaning m L with
    | none => loadFrom granted before fuel s (L.flatMap written ++ rest) = none
    | some m' => ∃ s' fuel', After before fuel s (L.flatMap written) rest m' (calls + L.length) s' fuel' := by
  induction L generalizing s m calls fuel with
  | nil => exact ⟨s,fuel,rfl,there,h,enough⟩
  | cons ps L ih =>
    rw [List.length_cons] at few
    have fit := fits ps List.mem_cons_self
    have text : (ps :: L).flatMap written ++ rest = written ps ++ (L.flatMap written ++ rest) := by simp
    rw [text] at enough ⊢
    obtain ⟨fuel₁,t,left,same,loads⟩ := loadWritten before (L.flatMap written ++ rest) ps there
      fit (fun none_ => blank ⟨ps,List.mem_cons_self,none_⟩) enough
    have settled := settleMeans (sameRepresents h same) (by omega) (logical ps)
    have first : meaning m (ps :: L) = (m.line (logical ps)).bind fun m => meaning m L := rfl
    rw [first]
    cases said : m.line (logical ps) with
    | none =>
      rw [said] at settled
      exact loads.trans (congrArg (fun t => Option.bind t (afterLine before fuel₁ (L.flatMap written ++ rest))) settled)
    | some m₁ =>
      rw [said] at settled
      obtain ⟨s₁,does,represents⟩ := settled
      have going : ¬s₁.errs < 0 := by
        rw [represents.errs]
        omega
      have rest_ := ih (fun ps mem => fits ps (List.mem_cons_of_mem _ mem))
        (fun some_ => blank (some_.imp fun ps both => ⟨List.mem_cons_of_mem _ both.1,both.2⟩))
        (s := { s₁ with kept := some [] }) rfl (sameRepresents represents ⟨rfl,rfl,rfl⟩) (by omega) left
      have goes : loadFrom granted before fuel s (written ps ++ (L.flatMap written ++ rest)) =
          loadFrom granted before fuel₁ { s₁ with kept := some [] } (L.flatMap written ++ rest) := by
        rw [loads,does,Option.bind_some,afterLine,if_neg going]
      rw [List.length_cons,← Nat.add_assoc,Nat.add_right_comm]
      rw [Option.bind_some]
      cases later : meaning m₁ L with
      | none =>
        rw [later] at rest_
        exact goes.trans rest_
      | some m₂ =>
        rw [later] at rest_
        obtain ⟨s₂,fuel₂,after⟩ := rest_
        refine ⟨s₂,fuel₂,?_,after.kept,after.represents,after.enough⟩
        rw [← after.loads,← goes,text]

theorem loadEnd {before : Char} {s : Loading} {kept : Str} {fuel : Nat} (there : s.kept = some kept) (enough : 0 < fuel) :
    loadFrom granted before fuel s [] = finish s := by
  obtain ⟨fuel,rfl⟩ := Nat.exists_eq_succ_of_ne_zero (Nat.ne_of_gt enough)
  rw [loadFrom,there]
  rfl

/- How iniparser_load comes behind the first lines of a file. -/
theorem loadBegins (before : Char) {L : List (List Str)} (rest : Str) (fits : ∀ ps ∈ L, Fits ps) (blank : Blanks before L)
    (few : L.length ≤ 0x8000000) :
    match meaning .start L with
    | none => iniparserLoad granted before (some (L.flatMap written ++ rest)) = none
    | some m => ∃ s fuel, iniparserLoad granted before (some (L.flatMap written ++ rest)) = loadFrom granted before fuel s rest ∧
        s.kept = some [] ∧ Represents s m L.length ∧ rest.length < fuel := by
  obtain ⟨d₀,made,start⟩ := Dictionary.newGrown 0
  obtain ⟨_,_,empty⟩ := Dictionary.newWell made start.well.whole
  have least : d₀.slots.length = dictMinSz := by
    unfold dictionaryNew at made
    simp only [Grants.all,if_true,Option.some.injEq] at made
    rw [← made,List.length_replicate]
    rfl
  rw [least] at start
  have begins : iniparserLoad granted before (some (L.flatMap written ++ rest)) =
      loadFrom granted before ((L.flatMap written ++ rest).length + 1) ⟨d₀,[],some [],0,0⟩ (L.flatMap written ++ rest) := by
    unfold iniparserLoad granted
    rw [made]
  have loads := loadLines before rest fits blank (s := ⟨d₀,[],some [],0,0⟩) (m := .start) rfl
    ⟨rfl,rfl,empty,start⟩ (by omega) (Nat.lt_succ_self (L.flatMap written ++ rest).length)
  rw [begins]
  cases said : meaning .start L with
  | none =>
    rw [said] at loads
    exact loads
  | some m =>
    rw [said] at loads
    obtain ⟨s,fuel,after⟩ := loads
    rw [Nat.zero_add] at after
    exact ⟨s,fuel,after.loads,after.kept,after.represents,after.enough⟩

theorem deleted {s : Loading} {m : Meaning} {calls : Nat} (h : Represents s m calls) : dictionaryDel s.dict = some () := by
  obtain ⟨vals,keys,_⟩ := Dictionary.wholeIff.1 h.grown.well.whole
  exact if_pos (.inr ⟨keys,vals⟩)

/- fgets does not come to the end of a line that is too long or has no end. -/
theorem unended (size : Nat) {tail : Str} (some_ : tail ≠ []) (long : '\n' ∉ tail.take (size - 1)) :
    ∃ rest, fgets size tail = some (tail.take (size - 1),rest) := by
  have word : ((tail.take (size - 1)).takeWhile fun c => c ≠ '\n') = tail.take (size - 1) :=
    List.takeWhile_eq_self_iff.2 fun c mem => by simpa using fun same : c = '\n' => long (same ▸ mem)
  have chunk : (tail.take (size - 1)).take ((tail.take (size - 1)).length + 1) = tail.take (size - 1) :=
    List.take_of_length_le (Nat.le_succ _)
  unfold fgets
  rw [if_neg some_]
  simp only [word,chunk]
  exact ⟨_,rfl⟩

theorem unendedTurn {s : Loading} {kept tail : Str} (before : Char) (clean : ∀ c ∈ kept, c ≠ '\n') (long : '\n' ∉ tail)
    (first : ∃ c ∈ (kept ++ tail).head?, c ≠ nul) : loadTurn granted before s kept tail = some .tooLong := by
  obtain ⟨c,first,text⟩ := first
  have ends : ((kept ++ tail).takeWhile fun c => c ≠ nul).getLast?.getD before ≠ '\n' := by
    cases last : ((kept ++ tail).takeWhile fun c => c ≠ nul).getLast? with
    | none =>
      obtain ⟨cs,split⟩ := List.head?_eq_some_iff.1 first
      rw [split,List.takeWhile_cons_of_pos (by simpa using text)] at last
      exact absurd (List.getLast?_eq_none_iff.1 last) (List.cons_ne_nil _ _)
    | some e =>
      rintro (rfl : e = '\n')
      rcases List.mem_append.1 ((List.takeWhile_sublist _).subset (List.mem_of_getLast? last)) with mem | mem
      · exact clean _ mem rfl
      · exact long mem
  unfold loadTurn
  simp only
  rw [if_pos ends]

/- A line without an end, behind any proper lines: the file is refused, or tmp was written over before.
ps are the pieces of that line that are read, tail is what is left of the file. -/
theorem loadRefuses (before : Char) {L : List (List Str)} {ps : List Str} {tail : Str} (fits : ∀ ps ∈ L, Fits ps)
    (blank : Blanks before L) (few : L.length ≤ 0x8000000) (plain : ∀ p ∈ ps, ∀ c ∈ p, c ≠ '\n' ∧ c ≠ nul)
    (short : ps.flatten.length ≤ 1021) (text : ∃ c ∈ tail.head?, c ≠ nul) (long : '\n' ∉ tail.take (1023 - ps.flatten.length)) :
    iniparserLoad granted before (some (L.flatMap written ++ (goesOn ps ++ tail))) =
      (meaning .start L).map fun _ => none := by
  have loads := loadBegins before (goesOn ps ++ tail) fits blank few
  cases said : meaning .start L with
  | none =>
    rw [said] at loads
    exact loads
  | some m =>
    rw [said] at loads
    obtain ⟨s,fuel,loads,there,represents,enough⟩ := loads
    obtain ⟨fuel,t,left,same,kept,pieces⟩ := loadPieces before tail ps there
      (fun c mem => absurd mem List.not_mem_nil) plain short enough
    rw [List.nil_append] at kept
    obtain ⟨fuel,rfl⟩ := Nat.exists_eq_succ_of_ne_zero (Nat.ne_of_gt (Nat.zero_lt_of_lt left))
    obtain ⟨c,head,some_⟩ := text
    obtain ⟨cs,rfl⟩ := List.head?_eq_some_iff.1 head
    have size : asciiLineSz - ps.flatten.length - 1 = 1023 - ps.flatten.length := by
      unfold asciiLineSz
      omega
    obtain ⟨rest,read⟩ := unended (asciiLineSz - ps.flatten.length) (List.cons_ne_nil c cs) (by rw [size]; exact long)
    have clean : ∀ c ∈ ps.flatten, c ≠ '\n' ∧ c ≠ nul := by
      intro c mem
      obtain ⟨p,piece,mem⟩ := List.mem_flatten.1 mem
      exact plain p piece c mem
    have first : ∃ d ∈ (ps.flatten ++ (c :: cs).take (1023 - ps.flatten.length)).head?, d ≠ nul := by
      cases kept_ : ps.flatten with
      | nil => exact ⟨c,rfl,some_⟩
      | cons d ds => exact ⟨d,rfl,(clean d (by rw [kept_]; exact List.mem_cons_self)).2⟩
    have turn := unendedTurn (s := t) before (fun c mem => (clean c mem).1) long first
    rw [loads,pieces,loadFrom,kept,Option.getD_some,read,size]
    simp only
    rw [turn,Option.bind_some,deleted (sameRepresents represents same)]
    rfl

/- The file ends behind its only value. -/
theorem loadRefusesOpen : iniparserLoad granted '\n' (some "[A]\na = x\\\ny".toList) = some none := by
  have fits : ∀ ps ∈ [["[A]".toList]], Fits ps := by
    intro ps mem
    rw [List.mem_singleton.1 mem]
    exact ⟨plainPieces (by decide),by decide,by decide⟩
  have refuses := @loadRefuses '\n' [["[A]".toList]] ["a = x".toList] ['y'] fits (fun _ => by decide) (by decide) (plainPieces (by decide))
    (by decide) ⟨'y',rfl,by decide⟩ (by decide)
  obtain ⟨m,said⟩ : ∃ m, meaning .start [["[A]".toList]] = some m := ⟨_,rfl⟩
  rw [said] at refuses
  exact refuses

/- What kind of line it is does not depend on the section. -/
def Unreadable (ps : List Str) : Prop := iniparserLine [] (logical ps) = .error

def Sets (ps : List Str) : Prop :=
  (∃ name, iniparserLine [] (logical ps) = .section_ name) ∨ ∃ key value, iniparserLine [] (logical ps) = .value key value

section Errs
variable {m m' : Meaning} {L : List (List Str)}

theorem sectionLine (section_ : Str) {line : Str} (empty : strstrip line ≠ []) (comment : (strstrip line).head? ≠ some '#')
    (named : (strstrip line).head? = some '[' ∧ (strstrip line).getLast? = some ']') :
    iniparserLine section_ line =
      .section_ (strlwc (strstrip ((scanSet (fun c => c ≠ ']') (strstrip line).tail).elim section_ Prod.fst))) := by
  unfold iniparserLine
  rw [if_neg empty,if_neg comment,if_pos named]

theorem lineKind (section_ line : Str) :
    iniparserLine section_ line = iniparserLine [] line ∨
      ∃ name name', iniparserLine section_ line = .section_ name ∧ iniparserLine [] line = .section_ name' := by
  by_cases empty : strstrip line = []
  · exact .inl (by simp only [iniparserLine,if_pos empty])
  · by_cases comment : (strstrip line).head? = some '#'
    · exact .inl (by simp only [iniparserLine,if_neg empty,if_pos comment])
    · by_cases named : (strstrip line).head? = some '[' ∧ (strstrip line).getLast? = some ']'
      · exact .inr ⟨_,_,sectionLine section_ empty comment named,sectionLine [] empty comment named⟩
      · exact .inl (by simp only [iniparserLine,if_neg empty,if_neg comment,if_neg named])

/- One line: it leaves errs, adds one to it or sets it back. -/
theorem lineErrs {ps : List Str} (said : m.line (logical ps) = some m') :
    (Sets ps ∧ ¬Unreadable ps ∧ m'.errs = 0) ∨ (Unreadable ps ∧ ¬Sets ps ∧ m'.errs = m.errs + 1) ∨
      (¬Sets ps ∧ ¬Unreadable ps ∧ m'.errs = m.errs) := by
  unfold Meaning.line at said
  rcases lineKind m.section_ (logical ps) with same | ⟨name,name',named,here⟩
  · rw [same] at said
    unfold Sets Unreadable
    cases status : iniparserLine [] (logical ps) with
    | empty | comment =>
      rw [status] at said
      cases Option.some.inj said
      simp
    | error =>
      rw [status] at said
      cases Option.some.inj said
      simp
    | section_ name =>
      rw [status] at said
      cases Option.some.inj said
      simp
    | value key value =>
      rw [status] at said
      simp only at said
      split at said
      · cases said
      · cases Option.some.inj said
        simp
  · rw [named] at said
    cases Option.some.inj said
    exact .inl ⟨.inl ⟨name',here⟩,by unfold Unreadable; rw [here]; exact nofun,rfl⟩

/- A line that cannot be read, and none after it that sets an entry. -/
def ErrorLast (L : List (List Str)) : Prop := ∃ A e B, L = A ++ e :: B ∧ Unreadable e ∧ ∀ ps ∈ B, ¬Sets ps

theorem errorCons {ps : List Str} : ErrorLast (ps :: L) ↔ (Unreadable ps ∧ ∀ ps ∈ L, ¬Sets ps) ∨ ErrorLast L := by
  constructor
  · rintro ⟨A,e,B,split,bad,quiet⟩
    cases A with
    | nil =>
      cases split
      exact .inl ⟨bad,quiet⟩
    | cons a A =>
      cases split
      exact .inr ⟨A,e,B,rfl,bad,quiet⟩
  · rintro (⟨bad,quiet⟩ | ⟨A,e,B,rfl,bad,quiet⟩)
    · exact ⟨[],ps,L,rfl,bad,quiet⟩
    · exact ⟨ps :: A,e,B,rfl,bad,quiet⟩

theorem meaningErrs (said : meaning m L = some m') :
    m'.errs ≠ 0 ↔ (m.errs ≠ 0 ∧ ∀ ps ∈ L, ¬Sets ps) ∨ ErrorLast L := by
  induction L generalizing m with
  | nil =>
    cases Option.some.inj said
    have none_ : ¬ErrorLast [] := by
      rintro ⟨A,e,B,split,_⟩
      exact absurd split (by simp)
    simp [none_]
  | cons ps L ih =>
    obtain ⟨m₁,first,said⟩ := Option.bind_eq_some_iff.1 said
    rw [ih said,errorCons,List.forall_mem_cons]
    rcases lineErrs first with ⟨sets,reads,errs⟩ | ⟨bad,sets,errs⟩ | ⟨sets,reads,errs⟩
    · simp [errs,sets,reads]
    · simp only [errs,sets,bad,not_false_eq_true,true_and]
      constructor
      · rintro (⟨-,quiet⟩ | error)
        · exact .inr (.inl quiet)
        · exact .inr (.inr error)
      · rintro (⟨-,quiet⟩ | quiet | error)
        · exact .inl ⟨Nat.succ_ne_zero _,quiet⟩
        · exact .inl ⟨Nat.succ_ne_zero _,quiet⟩
        · exact .inr error
    · simp [errs,sets,reads]

end Errs

/- A file of proper lines: it overflows tmp, is refused or is in the dictionary as it says. An
unreadable line refuses it only when no line after it sets an entry. -/
theorem loadSays (before : Char) {L : List (List Str)} (fits : ∀ ps ∈ L, Fits ps) (blank : Blanks before L)
    (few : L.length ≤ 0x8000000) :
    match meaning .start L with
    | none => iniparserLoad granted before (some (L.flatMap written)) = none
    | some m => ∃ r, iniparserLoad granted before (some (L.flatMap written)) = some r ∧
        (r = none ↔ ErrorLast L) ∧
        ∀ d ∈ r, ∀ key def_, iniparserGetstring d key def_ = some ((m.bindings (strlwc key)).elim def_ CharPtr.of) := by
  have loads := loadBegins before [] fits blank few
  rw [List.append_nil] at loads
  cases said : meaning .start L with
  | none =>
    rw [said] at loads
    exact loads
  | some m =>
    rw [said] at loads
    obtain ⟨s,fuel,loads,there,represents,enough⟩ := loads
    have ends := loads.trans (loadEnd there enough)
    have errs := (meaningErrs said).trans (or_iff_right fun both => both.1 rfl)
    have zero : s.errs = 0 ↔ m.errs = 0 := by
      rw [represents.errs]
      omega
    by_cases none_ : m.errs = 0
    · refine ⟨some s.dict,ends.trans (if_pos (zero.2 none_)),?_,?_⟩
      · rw [← errs]
        simp [none_]
      · intro d mem key def_
        cases Option.mem_some_iff.1 mem
        rw [iniparserGetstring,Dictionary.getBinding represents.grown.well,represents.bindings]
    · refine ⟨none,?_,?_,nofun⟩
      · rw [ends,finish,if_neg (fun z => none_ (zero.1 z)),deleted represents]
        rfl
      · rw [← errs]
        simp [none_]

/- The value of a goes on in the next line, and the last line sets errs back. -/
theorem loadSaysAll : ∃ d, iniparserLoad granted 'x' (some "[A]\na = x\\\ny\n?\nb = 1\n".toList) = some (some d) ∧
    iniparserGetstring d "A:A".toList .null = some (.of "xy".toList) := by
  have fits : ∀ ps ∈ [["[A]".toList],["a = x".toList,"y".toList],["?".toList],["b = 1".toList]], Fits ps := by
    intro ps mem
    simp only [List.mem_cons,List.not_mem_nil,or_false] at mem
    rcases mem with rfl | rfl | rfl | rfl <;> exact ⟨plainPieces (by decide),by decide,by decide⟩
  have loads := loadSays 'x' fits (fun _ => by decide) (by decide)
  obtain ⟨m,said,errs,value⟩ : ∃ m, meaning .start [["[A]".toList],["a = x".toList,"y".toList],["?".toList],["b = 1".toList]] =
      some m ∧ m.errs = 0 ∧ m.bindings "a:a".toList = some (some "xy".toList) := ⟨_,rfl,rfl,rfl⟩
  rw [said] at loads
  obtain ⟨r,loads,refused,serves⟩ := loads
  have accepted : r ≠ none := by
    intro none_
    exact (meaningErrs said).2 (.inr (refused.1 none_)) errs
  obtain ⟨d,rfl⟩ := Option.ne_none_iff_exists'.1 accepted
  refine ⟨d,loads,?_⟩
  have lower : strlwc "A:A".toList = "a:a".toList := by decide
  rw [serves d rfl,lower,value]
  rfl

end CuteNdk.Ini
