import CuteNdk.LogConfig
import Mathlib.Data.List.MinMax
import Mathlib.Data.List.TakeWhile

/-! The outputs of a module: its own and those of the names above it, without what starts with
~ and what its own list negates. A list that negates anything keeps the negation itself, so
that the outputs are the wanted ones exactly where nothing is negated. -/
namespace CuteNdk.Log
open Lib.CString

/- A key word of blanks. -/
def Blank (item : Str) : Prop := (item.head? = some ' ' ∨ item.getLast? = some ' ') ∧ ∀ c ∈ item, isspace c = true

instance (item) : Decidable (Blank item) :=
  decidable_of_iff ((item.head? = some ' ' ∨ item.getLast? = some ' ') ∧ item.all isspace = true) (by simp [Blank])

/- The name is what stands before a dot of the module's. -/
def Ancestor (name mname : Str) : Prop := ∃ rest, mname = name ++ '.' :: rest

/- What is read for the attribute of a name, taken apart at sep. -/
def itemsRead (ini : Dictionary) (attr : Str) (sep : Char) (name : Str) : List Str :=
  (getConfigAttribe ini modulesSection name (some attr)).elim [] fun value => value.splitOn sep

def outputsRead (ini : Dictionary) (name : Str) : List Str := (itemsRead ini logAttrOutput ',' name).filterMap keyWord

/- What is configured for it: the key is not cut. -/
def outputsOf (ini : Dictionary) (name : Str) : List Str :=
  ((ini.lookup ((modulesSection ++ ':' :: name ++ '.' :: logAttrOutput).map Char.toLower)).filter fun value => value ≠ []).elim
    [] fun value => (value.splitOn ',').filterMap keyWord

def Wanted (ini : Dictionary) (mname output : Str) : Prop :=
  (output ∈ outputsOf ini mname ∨ ∃ name, Ancestor name mname ∧ output ∈ outputsOf ini name) ∧
    negated output = false ∧ '~' :: output ∉ outputsOf ini mname

/- The entry has the wanted outputs, each once, and no iterator past the end was erased. -/
def Resolves (ini : Dictionary) (mname : Str) : Prop :=
  ∃ entry, getModuleCfgEntry (some ini) mname = some entry ∧ entry.outputList.Nodup ∧
    ∀ output, output ∈ entry.outputList ↔ Wanted ini mname output

/- No key word of blanks among what is read. -/
def Readable (ini : Dictionary) (mname : Str) : Prop :=
  ∀ name, name = mname ∨ Ancestor name mname →
    (∀ item ∈ itemsRead ini logAttrType '|' name, ¬ Blank item) ∧
      ∀ item ∈ itemsRead ini logAttrOutput ',' name, ¬ Blank item

section Tokens

theorem keyWordNone {item : Str} : keyWord item = none ↔ Blank item := by
  unfold keyWord Blank strstrip
  split
  · rename_i spaced
    have all : (∀ c ∈ item, isspace c = true) ↔ item.dropWhile isspace = [] := List.dropWhile_eq_nil_iff.symm
    rw [all]
    split
    · rename_i empty
      exact iff_of_true rfl ⟨spaced,empty⟩
    · rename_i begin
      exact iff_of_false (fun no => by cases no) fun blank => begin blank.2
  · rename_i spaced
    exact iff_of_false (fun no => by cases no) fun blank => spaced blank.1

theorem isSomeIf {α : Type} {p : Prop} [Decidable p] {a : α} : (if p then some a else none).isSome = true ↔ p := by
  split
  · rename_i yes
    exact iff_of_true rfl yes
  · rename_i no
    exact iff_of_false Bool.false_ne_true no

section Loop
variable {sep : Char}

/- At a key word the loop takes all of it. -/
theorem tokensWord (fuel : Nat) (first : Bool) {c : Char} (rest : Str) (other : c ≠ sep) :
    ∃ word tail, c :: rest = word ++ tail ∧ (tail = [] ∨ ∃ rest', tail = sep :: rest') ∧
      tail.length ≤ rest.length ∧ sep ∉ word ∧ tokensFrom sep (fuel + 1) first (c :: rest) =
        (keyWord word).bind fun token => (tokensFrom sep fuel false tail).map fun tokens => token :: tokens := by
  refine ⟨(c :: rest).takeWhile fun d => d ≠ sep,(c :: rest).dropWhile fun d => d ≠ sep,
    List.takeWhile_append_dropWhile.symm,?_,?_,fun mem => ?_,?_⟩
  · cases after : (c :: rest).dropWhile fun d => decide (d ≠ sep) with
    | nil => exact .inl rfl
    | cons d tail =>
      have stops := List.head?_dropWhile_not (fun d => decide (d ≠ sep)) (c :: rest)
      rw [after] at stops
      have same : d = sep := by simpa using stops
      exact .inr ⟨tail,by rw [same]⟩
  · rw [List.dropWhile_cons_of_pos (by simpa using other)]
    exact (List.dropWhile_suffix _).length_le
  · have no := List.mem_takeWhile_imp mem
    simp at no
  · conv => lhs; unfold tokensFrom
    rw [if_neg other]

/- The loop takes the text apart at sep. At a separator it has taken what stands before it,
unless it is the first letter. -/
theorem tokensFromSplit (fuel : Nat) : ∀ s : Str, s.length ≤ fuel →
    (∀ c rest first, s = c :: rest → c ≠ sep → tokensFrom sep fuel first s = (s.splitOn sep).mapM keyWord) ∧
    ∀ rest first, s = sep :: rest →
      tokensFrom sep fuel first s = ((if first then [[]] else []) ++ rest.splitOn sep).mapM keyWord := by
  induction fuel with
  | zero =>
    intro s short
    rw [List.eq_nil_of_length_eq_zero (Nat.le_zero.mp short)]
    exact ⟨fun c rest first no => (by cases no),fun rest first no => (by cases no)⟩
  | succ fuel ih =>
    intro s short
    constructor
    · rintro c rest first rfl other
      obtain ⟨word,tail,split,stop,fewer,fresh,took⟩ := tokensWord fuel first rest other
      rw [took,split]
      rcases stop with rfl | ⟨rest',rfl⟩
      · rw [List.append_nil,List.splitOn_eq_singleton fresh,List.mapM_cons,List.mapM_nil]
        cases keyWord word <;> cases fuel <;> rfl
      · have less : (sep :: rest').length ≤ fuel := Nat.le_trans fewer (Nat.le_of_succ_le_succ short)
        rw [(ih (sep :: rest') less).2 rest' false rfl,List.splitOn_append_cons_self_of_not_mem fresh,List.mapM_cons]
        simp only [Bool.false_eq_true,if_false,List.nil_append]
        cases keyWord word <;> cases (rest'.splitOn sep).mapM keyWord <;> rfl
    · rintro rest first rfl
      have less : rest.length ≤ fuel := Nat.le_of_succ_le_succ short
      have empty : keyWord [] = some [] := rfl
      have later : (tokensFrom sep fuel false rest).map (fun tokens =>
          (if rest.head?.all fun next => decide (next = sep) then [[]] else []) ++ tokens) = (rest.splitOn sep).mapM keyWord := by
        cases rest with
        | nil => cases fuel <;> rfl
        | cons d rest =>
          by_cases same : d = sep
          · subst same
            rw [(ih (d :: rest) less).2 rest false rfl,List.splitOn_cons_eq_if_modifyHead]
            simp only [beq_self_eq_true,if_true,List.mapM_cons,empty,Bool.false_eq_true,if_false,List.nil_append]
            cases (rest.splitOn d).mapM keyWord <;> simp
          · rw [(ih (d :: rest) less).1 d rest false rfl same]
            simp [same]
      unfold tokensFrom
      rw [if_pos rfl]
      rw [List.mapM_append,← later]
      cases first <;> cases tokensFrom sep fuel false rest <;> simp [empty]

theorem getTokenListSplit {buff : Str} (some_ : buff ≠ []) : getTokenList buff sep = (buff.splitOn sep).mapM keyWord := by
  cases buff with
  | nil => exact absurd rfl some_
  | cons c rest =>
    by_cases same : c = sep
    · subst same
      unfold getTokenList
      rw [(tokensFromSplit (c :: rest).length (c :: rest) (Nat.le_refl _)).2 rest true rfl,
        List.splitOn_cons_eq_if_modifyHead]
      simp
    · exact (tokensFromSplit (c :: rest).length (c :: rest) (Nat.le_refl _)).1 c rest true rfl same

/- The tokens are there exactly where no key word is blank. -/
theorem getTokenListAre {buff : Str} (some_ : buff ≠ []) : getTokenList buff sep =
    if ∀ item ∈ buff.splitOn sep, ¬ Blank item then some ((buff.splitOn sep).filterMap keyWord) else none := by
  rw [getTokenListSplit some_,mapMFilter]
  simp only [← keyWordNone,← Option.isSome_iff_ne_none]

end Loop

end Tokens

section Ancestors

theorem parentNone {name : Str} : parent name = none ↔ '.' ∉ name := by
  unfold parent
  rw [Option.map_eq_none_iff]
  constructor
  · intro none' mem
    obtain ⟨pre,post,same,fresh⟩ := lastSplit mem
    rw [same,strrchrFound fresh] at none'
    cases none'
  · exact strrchrNone

theorem parentSome {name above : Str} (found : parent name = some above) :
    ∃ rest, '.' ∉ rest ∧ name = above ++ '.' :: rest := by
  have mem : '.' ∈ name := by
    cases Decidable.em ('.' ∈ name) with
    | inl mem => exact mem
    | inr fresh =>
      rw [parentNone.mpr fresh] at found
      cases found
  obtain ⟨pre,post,same,fresh⟩ := lastSplit mem
  unfold parent at found
  rw [same,strrchrFound fresh,Option.map_some,List.length_append,Nat.add_sub_cancel,List.take_left] at found
  cases Option.some.inj found
  exact ⟨post,fresh,same⟩

theorem parentShorter {name above : Str} (found : parent name = some above) : above.length < name.length := by
  obtain ⟨rest,_,rfl⟩ := parentSome found
  rw [List.length_append,List.length_cons]
  omega

/- The names above a name are the one its last dot cuts off and those above that. -/
theorem ancestorStep {name above a : Str} (found : parent name = some above) :
    Ancestor a name ↔ a = above ∨ Ancestor a above := by
  obtain ⟨rest,fresh,rfl⟩ := parentSome found
  constructor
  · rintro ⟨rest',same⟩
    rcases List.append_eq_append_iff.mp same with ⟨t,rfl,split⟩ | ⟨t,rfl,split⟩
    · cases t with
      | nil => exact .inl (List.append_nil above)
      | cons c t =>
        obtain ⟨rfl,rfl⟩ := List.cons.inj split
        exact absurd (List.mem_append_right t List.mem_cons_self) fresh
    · cases t with
      | nil => exact .inl (List.append_nil a).symm
      | cons c t =>
        obtain ⟨rfl,_⟩ := List.cons.inj split
        exact .inr ⟨t,rfl⟩
  · rintro (rfl | ⟨rest',rfl⟩)
    · exact ⟨rest,rfl⟩
    · exact ⟨rest' ++ '.' :: rest,by rw [List.append_assoc,List.cons_append]⟩

theorem noAncestor {name a : Str} (top : parent name = none) : ¬ Ancestor a name := by
  rintro ⟨rest,rfl⟩
  exact parentNone.mp top (List.mem_append_right a List.mem_cons_self)

theorem ancestorShorter {name a : Str} (above : Ancestor a name) : a.length < name.length := by
  obtain ⟨rest,rfl⟩ := above
  rw [List.length_append,List.length_cons]
  omega

/- The loop of get_parent_output fails where a name above fails, and otherwise has the outputs of all. -/
theorem parentOutputAre (ini : Dictionary) {fuel : Nat} {name : Str} (enough : name.length ≤ fuel) :
    ((∃ a, Ancestor a name ∧ getLogOutput ini a = none) ∧ parentOutput ini fuel name = none) ∨
    ∃ ot, parentOutput ini fuel name = some ot ∧ (∀ a, Ancestor a name → (getLogOutput ini a).isSome) ∧
      ∀ o, o ∈ ot ↔ ∃ a l, Ancestor a name ∧ getLogOutput ini a = some l ∧ o ∈ l := by
  induction fuel generalizing name with
  | zero =>
    have top : parent name = none := by
      rw [List.eq_nil_of_length_eq_zero (Nat.le_zero.mp enough)]
      rfl
    exact .inr ⟨[],rfl,fun a above => absurd above (noAncestor top),fun o =>
      iff_of_false List.not_mem_nil fun ⟨a,_,above,_⟩ => noAncestor top above⟩
  | succ fuel ih =>
    unfold parentOutput
    cases found : parent name with
    | none =>
      exact .inr ⟨[],rfl,fun a above => absurd above (noAncestor found),fun o =>
        iff_of_false List.not_mem_nil fun ⟨a,_,above,_⟩ => noAncestor found above⟩
    | some above =>
      have step {a : Str} := ancestorStep (a := a) found
      have shorter := parentShorter found
      simp only [step]
      cases read : getLogOutput ini above with
      | none => exact .inl ⟨⟨above,.inl rfl,read⟩,rfl⟩
      | some ret =>
        rcases ih (show above.length ≤ fuel by omega) with ⟨⟨a,higher,failed⟩,none'⟩ | ⟨ot,walked,readable,mem⟩
        · exact .inl ⟨⟨a,.inr higher,failed⟩,by rw [none']; rfl⟩
        · refine .inr ⟨ret ++ ot,by rw [walked]; rfl,?_,fun o => ?_⟩
          · rintro a (rfl | higher)
            · rw [read]
              rfl
            · exact readable a higher
          · rw [List.mem_append,mem]
            constructor
            · rintro (here | ⟨a,l,higher,rest⟩)
              · exact ⟨above,ret,.inl rfl,read,here⟩
              · exact ⟨a,l,.inr higher,rest⟩
            · rintro ⟨a,l,rfl | higher,answer,inside⟩
              · rw [read] at answer
                cases Option.some.inj answer
                exact .inl inside
              · exact .inr ⟨a,l,higher,answer,inside⟩

/- The types are read for the name and all above it. -/
theorem parentTypesRead (ini : Dictionary) {fuel : Nat} {name : Str} (enough : name.length ≤ fuel)
    (fits : name.length ≤ maxModuleNameLen) : (getParentLogType ini fuel name).isSome ↔
      ∀ a, a = name ∨ Ancestor a name → (getLogType ini a).isSome := by
  induction fuel generalizing name with
  | zero =>
    have top : parent name = none := by
      rw [List.eq_nil_of_length_eq_zero (Nat.le_zero.mp enough)]
      rfl
    unfold getParentLogType
    refine ⟨fun read a which => ?_,fun all => all name (.inl rfl)⟩
    rcases which with rfl | above
    · exact read
    · exact absurd above (noAncestor top)
  | succ fuel ih =>
    unfold getParentLogType
    cases read : getLogType ini name with
    | none =>
      refine iff_of_false (fun no => by cases no) fun all => ?_
      have here := all name (.inl rfl)
      rw [read] at here
      cases here
    | some l =>
      cases found : parent name with
      | none =>
        refine iff_of_true rfl fun a which => ?_
        rcases which with rfl | above
        · rw [read]
          rfl
        · exact absurd above (noAncestor found)
      | some above =>
        have shorter := parentShorter found
        have higher := ih (show above.length ≤ fuel by omega) (show above.length ≤ maxModuleNameLen by omega)
        simp only [Option.bind_some,if_neg (show ¬ maxModuleNameLen < above.length by omega),Option.isSome_map,higher]
        constructor
        · intro all a which
          rcases which with rfl | up
          · rw [read]
            rfl
          · exact all a ((ancestorStep found).mp up)
        · exact fun all a which => all a (.inr ((ancestorStep found).mpr which))

end Ancestors

section Reading
variable {ini : Dictionary} {name : Str}

theorem attributeSome {section_ : Str} {attr : Option Str} {value : Str}
    (found : getConfigAttribe ini section_ name attr = some value) : value ≠ [] := by
  have kept := (Option.filter_eq_some_iff.mp found).2
  simpa using kept

theorem logTypeRead : (getLogType ini name).isSome ↔ ∀ item ∈ itemsRead ini logAttrType '|' name, ¬ Blank item := by
  unfold getLogType itemsRead
  cases found : getConfigAttribe ini modulesSection name (some logAttrType) with
  | none => exact iff_of_true rfl fun item mem => absurd mem List.not_mem_nil
  | some value =>
    simp only [Option.isSome_map,getTokenListAre (attributeSome found),Option.elim_some]
    exact isSomeIf

theorem logOutputRead : getLogOutput ini name =
    if ∀ item ∈ itemsRead ini logAttrOutput ',' name, ¬ Blank item then some (outputsRead ini name) else none := by
  unfold getLogOutput outputsRead itemsRead
  cases found : getConfigAttribe ini modulesSection name (some logAttrOutput) with
  | none => rfl
  | some value => exact getTokenListAre (attributeSome found)

/- The key of a short name is not cut. -/
theorem shortNameRead (short : name.length ≤ 235) : outputsRead ini name = outputsOf ini name := by
  have whole : (modulesSection ++ ':' :: name ++ '.' :: logAttrOutput).take (maxModuleNameLen - 1) =
      modulesSection ++ ':' :: name ++ '.' :: logAttrOutput := by
    refine List.take_of_length_le ?_
    have sizes : modulesSection.length = 7 ∧ logAttrOutput.length = 10 := ⟨rfl,rfl⟩
    rw [List.length_append,List.length_append,List.length_cons,List.length_cons,sizes.1,sizes.2]
    unfold maxModuleNameLen
    omega
  unfold outputsRead outputsOf itemsRead getConfigAttribe
  simp only [Option.elim_some,whole]
  cases (ini.lookup ((modulesSection ++ ':' :: name ++ '.' :: logAttrOutput).map Char.toLower)).filter
    fun value => value ≠ [] <;> rfl

end Reading

section Resolution
variable {outputs : List Str}

theorem memUnique {o : Str} : o ∈ unique outputs ↔ o ∈ outputs := by
  fun_induction unique outputs with
  | case1 => exact Iff.rfl
  | case2 a => exact Iff.rfl
  | case3 b l ih =>
    rw [ih]
    simp
  | case4 a b l _ ih => rw [List.mem_cons,ih,← List.mem_cons]

theorem uniqueNodup (sorted : outputs.Pairwise (· ≤ ·)) : (unique outputs).Nodup := by
  fun_induction unique outputs with
  | case1 => exact List.nodup_nil
  | case2 a => exact List.nodup_singleton a
  | case3 b l ih => exact ih sorted.of_cons
  | case4 a b l other ih =>
    refine List.nodup_cons.mpr ⟨fun mem => ?_,ih sorted.of_cons⟩
    rw [memUnique] at mem
    have low : a ≤ b := List.rel_of_pairwise_cons sorted List.mem_cons_self
    rcases List.mem_cons.mp mem with same | later
    · exact other same
    · exact other (le_antisymm low (List.rel_of_pairwise_cons sorted.of_cons later))

/- What is not negated stays. -/
theorem eraseNegKeeps {neg erased : List Str} {o : Str} (done : eraseNeg outputs neg = some erased) (mem : o ∈ outputs)
    (kept : ∀ n ∈ neg, n.tail ≠ o) : o ∈ erased := by
  induction neg generalizing outputs with
  | nil =>
    cases Option.some.inj done
    exact mem
  | cons n neg ih =>
    have later : ∀ n ∈ neg, n.tail ≠ o := fun n' mem' => kept n' (List.mem_cons_of_mem n mem')
    unfold eraseNeg at done
    simp only at done
    split at done
    · exact ih done mem later
    · split at done
      · exact ih done ((List.mem_erase_of_ne (kept n List.mem_cons_self).symm).mpr mem) later
      · cases done

/- A list with a negation has a longest one. -/
theorem longestNegated {own : List Str} (some_ : ∃ o ∈ own, negated o = true) :
    ∃ o ∈ own, negated o = true ∧ ∀ n ∈ own.filter negated, n.length ≤ o.length := by
  obtain ⟨o,mem,neg⟩ := some_
  have inside : o ∈ own.filter negated := List.mem_filter.mpr ⟨mem,neg⟩
  cases found : (own.filter negated).argmax List.length with
  | none =>
    rw [List.argmax_eq_none.mp found] at inside
    cases inside
  | some longest =>
    have here := List.mem_filter.mp (List.argmax_mem found)
    exact ⟨longest,here.1,here.2,fun n mem => List.le_of_mem_argmax mem found⟩

variable {ini : Dictionary} {mname : Str}

/- What the lists of the name and of those above it hold, as they are read. -/
def Gathered (ini : Dictionary) (mname output : Str) : Prop :=
  output ∈ outputsRead ini mname ∨ ∃ name, Ancestor name mname ∧ output ∈ outputsRead ini name ∧ negated output = false

theorem logOutputSome {name : Str} {l : List Str} (found : getLogOutput ini name = some l) : l = outputsRead ini name := by
  rw [logOutputRead] at found
  split at found
  · exact (Option.some.inj found).symm
  · cases found

/- Without a dot no name is above. -/
theorem aboveAre (ini : Dictionary) (fits : mname.length ≤ maxModuleNameLen) :
    ((∃ a, Ancestor a mname ∧ getLogOutput ini a = none) ∧
      (if '.' ∈ mname then getParentOutput ini mname else some []) = none) ∨
    ∃ ot, (if '.' ∈ mname then getParentOutput ini mname else some []) = some ot ∧
      (∀ a, Ancestor a mname → (getLogOutput ini a).isSome) ∧
      ∀ o, o ∈ ot ↔ ∃ a l, Ancestor a mname ∧ getLogOutput ini a = some l ∧ o ∈ l := by
  split
  · unfold getParentOutput
    rw [List.take_of_length_le fits]
    exact parentOutputAre ini (Nat.le_refl _)
  · rename_i fresh
    have top := parentNone.mpr fresh
    exact .inr ⟨[],rfl,fun a above => absurd above (noAncestor top),fun o =>
      iff_of_false List.not_mem_nil fun ⟨a,_,above,_⟩ => noAncestor top above⟩

/- Where all lists are read, the outputs are those gathered, without the negated ones. -/
theorem resolveOutputsAre (ini : Dictionary) (fits : mname.length ≤ maxModuleNameLen) :
    ((∃ name, (name = mname ∨ Ancestor name mname) ∧ getLogOutput ini name = none) ∧ resolveOutputs ini mname = none) ∨
    (∀ name, name = mname ∨ Ancestor name mname → (getLogOutput ini name).isSome) ∧
      ∃ all, resolveOutputs ini mname = eraseNeg all ((outputsRead ini mname).filter negated) ∧ all.Nodup ∧
        ∀ o, o ∈ all ↔ Gathered ini mname o := by
  unfold resolveOutputs
  cases read : getLogOutput ini mname with
  | none => exact .inl ⟨⟨mname,.inl rfl,read⟩,rfl⟩
  | some own =>
    cases logOutputSome read
    rcases aboveAre ini fits with ⟨⟨a,above,failed⟩,none'⟩ | ⟨ot,walked,readable,mem⟩
    · exact .inl ⟨⟨a,.inr above,failed⟩,by rw [none']; rfl⟩
    · refine .inr ⟨fun name which => ?_,_,by rw [walked]; rfl,uniqueNodup (List.pairwise_insertionSort _ _),fun o => ?_⟩
      · rcases which with rfl | above
        · rw [read]
          rfl
        · exact readable name above
      · rw [memUnique,List.mem_insertionSort,List.mem_append,List.mem_filter,mem]
        unfold Gathered
        refine or_congr Iff.rfl ⟨?_,?_⟩
        · rintro ⟨⟨a,l,above,answer,inside⟩,plain⟩
          cases logOutputSome answer
          exact ⟨a,above,inside,by simpa using plain⟩
        · rintro ⟨a,above,inside,plain⟩
          obtain ⟨l,answer⟩ := Option.isSome_iff_exists.mp (readable a above)
          cases logOutputSome answer
          exact ⟨⟨a,_,above,answer,inside⟩,by simpa using plain⟩

/- The entry is there where all types are read and the outputs are resolved. -/
theorem entryOutputs (fits : mname.length ≤ maxModuleNameLen) (P : List Str → Prop) :
    (∃ entry, getModuleCfgEntry (some ini) mname = some entry ∧ P entry.outputList) ↔
      (∀ name, name = mname ∨ Ancestor name mname → (getLogType ini name).isSome) ∧
        ∃ outputs, resolveOutputs ini mname = some outputs ∧ P outputs := by
  have types : (∀ name, name = mname ∨ Ancestor name mname → (getLogType ini name).isSome) ↔
      (getLogType ini mname).isSome ∧
        (if '.' ∈ mname then getParentLogType ini mname.length mname else some 0).isSome := by
    split
    · rw [parentTypesRead ini (Nat.le_refl _) fits]
      exact ⟨fun all => ⟨all mname (.inl rfl),all⟩,And.right⟩
    · rename_i fresh
      have top := parentNone.mpr fresh
      refine ⟨fun all => ⟨all mname (.inl rfl),rfl⟩,fun here name which => ?_⟩
      rcases which with rfl | above
      · exact here.1
      · exact absurd above (noAncestor top)
  rw [types]
  unfold getModuleCfgEntry
  simp only
  cases getLogType ini mname with
  | none => exact iff_of_false (fun ⟨_,no,_⟩ => by cases no) fun ⟨⟨no,_⟩,_⟩ => by cases no
  | some type =>
    cases (if '.' ∈ mname then getParentLogType ini mname.length mname else some 0) with
    | none => exact iff_of_false (fun ⟨_,no,_⟩ => by cases no) fun ⟨⟨_,no⟩,_⟩ => by cases no
    | some parentType =>
      cases resolveOutputs ini mname with
      | none => exact iff_of_false (fun ⟨_,no,_⟩ => by cases no) fun ⟨_,_,no,_⟩ => by cases no
      | some outputs =>
        constructor
        · rintro ⟨entry,same,holds⟩
          cases Option.some.inj same
          exact ⟨⟨rfl,rfl⟩,outputs,rfl,holds⟩
        · rintro ⟨_,outputs',same,holds⟩
          cases Option.some.inj same
          exact ⟨_,rfl,holds⟩

theorem readableAll : Readable ini mname ↔
    (∀ name, name = mname ∨ Ancestor name mname → (getLogType ini name).isSome) ∧
      ∀ name, name = mname ∨ Ancestor name mname → (getLogOutput ini name).isSome := by
  have outputs {name : Str} : (getLogOutput ini name).isSome ↔
      ∀ item ∈ itemsRead ini logAttrOutput ',' name, ¬ Blank item := by
    rw [logOutputRead]
    exact isSomeIf
  simp only [Readable,logTypeRead,outputs]
  exact ⟨fun all => ⟨fun name which => (all name which).1,fun name which => (all name which).2⟩,
    fun both name which => ⟨both.1 name which,both.2 name which⟩⟩

/- A negation in the own list stays in the outputs, or is taken out of a list it is not in. -/
theorem resolvesRead (fits : mname.length ≤ maxModuleNameLen) : Resolves ini mname ↔
    Readable ini mname ∧ (∀ o ∈ outputsRead ini mname, negated o = false) ∧
      ∀ o, Wanted ini mname o ↔ Gathered ini mname o := by
  unfold Resolves
  rw [entryOutputs fits fun outputs => outputs.Nodup ∧ ∀ o, o ∈ outputs ↔ Wanted ini mname o,readableAll]
  rcases resolveOutputsAre ini fits with ⟨⟨name,which,failed⟩,none'⟩ | ⟨readable,all,resolved,nodup,mem⟩
  · refine iff_of_false (fun ⟨_,outputs,no,_⟩ => ?_) fun ⟨⟨_,readable⟩,_⟩ => ?_
    · rw [none'] at no
      cases no
    · have read := readable name which
      rw [failed] at read
      cases read
  · rw [resolved]
    constructor
    · rintro ⟨types,outputs,done,_,wanted⟩
      have plain : ∀ o ∈ outputsRead ini mname, negated o = false := by
        intro o own
        cases neg : negated o with
        | false => rfl
        | true =>
          obtain ⟨longest,inside,marks,most⟩ := longestNegated ⟨o,own,neg⟩
          have kept := eraseNegKeeps done ((mem longest).mpr (.inl inside)) fun n mark same => by
            have short := most n mark
            have long : 0 < longest.length := by
              cases longest with
              | nil => cases marks
              | cons c longest => exact Nat.succ_pos _
            have taken := congrArg List.length same
            rw [List.length_tail] at taken
            omega
          have want := (wanted longest).mp kept
          rw [want.2.1] at marks
          cases marks
      refine ⟨⟨types,readable⟩,plain,fun o => ?_⟩
      have none' : (outputsRead ini mname).filter negated = [] :=
        List.filter_eq_nil_iff.mpr fun o own => by simp [plain o own]
      rw [none'] at done
      cases Option.some.inj done
      rw [← wanted,mem]
    · rintro ⟨⟨types,_⟩,plain,same⟩
      have none' : (outputsRead ini mname).filter negated = [] :=
        List.filter_eq_nil_iff.mpr fun o own => by simp [plain o own]
      refine ⟨types,all,?_,nodup,fun o => ?_⟩
      · rw [none']
        rfl
      · rw [mem,same]

end Resolution

/- The key of the outputs is cut for a name of more than 235 characters. -/
theorem outputsResolve (ini : Dictionary) (mname : Str) (fits : mname.length ≤ maxModuleNameLen) :
    (Resolves ini mname ↔ Readable ini mname ∧ (∀ o ∈ outputsRead ini mname, negated o = false) ∧
      ∀ o, Wanted ini mname o ↔ Gathered ini mname o) ∧
    (mname.length ≤ 235 →
      (Resolves ini mname ↔ Readable ini mname ∧ ∀ o ∈ outputsOf ini mname, negated o = false)) := by
  refine ⟨resolvesRead fits,fun short => ?_⟩
  rw [resolvesRead fits,shortNameRead short]
  refine and_congr_right fun _ => ⟨And.left,fun plain => ⟨plain,fun o => ?_⟩⟩
  unfold Wanted Gathered
  rw [shortNameRead short]
  have unmarked : '~' :: o ∉ outputsOf ini mname := fun mem => by
    have no := plain _ mem
    cases no
  constructor
  · rintro ⟨own | ⟨a,above,inside⟩,plain',_⟩
    · exact .inl own
    · have shorter := ancestorShorter above
      exact .inr ⟨a,above,by rw [shortNameRead (by omega)]; exact inside,plain'⟩
  · rintro (own | ⟨a,above,inside,plain'⟩)
    · exact ⟨.inl own,plain o own,unmarked⟩
    · have shorter := ancestorShorter above
      rw [shortNameRead (by omega)] at inside
      exact ⟨.inr ⟨a,above,inside⟩,plain',unmarked⟩

/- A module below root with an output of its own. -/
def rootConfig : Dictionary :=
  [("modules:root.__output__".toList,"file_output".toList),("modules:root.http.__output__".toList,"screen, extra".toList)]

theorem httpResolves : Resolves rootConfig "root.http".toList := by
  refine ((outputsResolve rootConfig "root.http".toList (by decide)).2 (by decide)).mpr ⟨fun name which => ?_,by decide⟩
  have root : parent "root.http".toList = some "root".toList := by decide
  rcases which with rfl | above
  · decide
  · rcases (ancestorStep root).mp above with rfl | higher
    · decide
    · exact absurd higher (noAncestor (by decide))

/- An output that is negated and not in the list: the iterator past the end is erased. -/
theorem absentNegation : ¬ ∀ (ini : Dictionary) (mname : Str), mname.length ≤ maxModuleNameLen → Resolves ini mname := by
  intro claim
  obtain ⟨entry,found,_⟩ := claim [("modules:root.__output__".toList,"~file_output".toList)] "root".toList (by decide)
  have past : getModuleCfgEntry (some [("modules:root.__output__".toList,"~file_output".toList)]) "root".toList = none := by
    decide
  rw [past] at found
  cases found

end CuteNdk.Log
