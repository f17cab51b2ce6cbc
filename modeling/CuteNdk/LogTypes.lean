import CuteNdk.LogOutputs

/-! The key words of a value and the types of a module. get_token_list takes a text apart like
split as long as no piece is all blanks; the type of a module has the bits its own value and
those of the names above it list. -/
namespace CuteNdk.Log
open Lib.CString

section Tokens
variable {sep : Char} {piece : Str}

def trimmed (piece : Str) : Str := ((piece.dropWhile fun c => c = ' ').reverse.dropWhile fun c => c = ' ').reverse

/- One token more than there are separators, each a piece without the blanks around it. -/
def SplitsLikeSplit (buff : Str) (sep : Char) : Prop :=
  ∃ tokens, getTokenList buff sep = some tokens ∧ tokens.length = buff.count sep + 1 ∧
    tokens = (buff.splitOn sep).map trimmed

/- The only white space is the blank. -/
def OnlyBlanks (s : Str) : Prop := ∀ c ∈ s, isspace c = true → c = ' '

instance (s) : Decidable (OnlyBlanks s) :=
  decidable_of_iff (s.all (fun c => !isspace c || c == ' ') = true) (by simp [OnlyBlanks,Decidable.imp_iff_not_or])

/- No piece is blank all over. -/
def Lettered (pieces : List Str) : Prop := ∀ piece ∈ pieces, piece = [] ∨ ∃ c ∈ piece, c ≠ ' '

instance (pieces) : Decidable (Lettered pieces) :=
  decidable_of_iff (pieces.all (fun piece => piece.isEmpty || piece.any fun c => c != ' ') = true) (by simp [Lettered])

theorem splitOnLength (buff : Str) : (buff.splitOn sep).length = buff.count sep + 1 := by
  induction buff with
  | nil => rfl
  | cons c buff ih =>
    rw [List.splitOn_cons_eq_if_modifyHead,List.count_cons]
    split
    · rw [List.length_cons,ih]
    · rw [List.length_modifyHead,ih,Nat.add_zero]

/- A piece has the letters of the text. -/
theorem memPiece {buff : Str} {c : Char} (piece_ : piece ∈ buff.splitOn sep) (mem : c ∈ piece) : c ∈ buff := by
  induction buff generalizing piece with
  | nil =>
    rw [List.splitOn_nil,List.mem_singleton] at piece_
    rw [piece_] at mem
    cases mem
  | cons d buff ih =>
    rw [List.splitOn_cons_eq_if_modifyHead] at piece_
    split at piece_
    · rcases List.mem_cons.mp piece_ with rfl | later
      · cases mem
      · exact List.mem_cons_of_mem d (ih later mem)
    · cases pieces : buff.splitOn sep with
      | nil => exact absurd pieces (List.splitOn_ne_nil sep buff)
      | cons first rest =>
        rw [pieces] at piece_
        rcases List.mem_cons.mp piece_ with rfl | later
        · rcases List.mem_cons.mp mem with rfl | inside
          · exact List.mem_cons_self
          · exact List.mem_cons_of_mem d (ih (pieces ▸ List.mem_cons_self) inside)
        · exact List.mem_cons_of_mem d (ih (pieces ▸ List.mem_cons_of_mem first later) mem)

theorem dropBlanks {s : Str} (blanks : OnlyBlanks s) :
    s.dropWhile isspace = s.dropWhile fun c => c = ' ' := by
  induction s with
  | nil => rfl
  | cons c s ih =>
    have later := ih fun d mem => blanks d (List.mem_cons_of_mem c mem)
    cases space : isspace c with
    | true =>
      have same := blanks c List.mem_cons_self space
      rw [List.dropWhile_cons_of_pos space,List.dropWhile_cons_of_pos (by simpa using same),later]
    | false =>
      have other : c ≠ ' ' := fun same => by
        rw [same] at space
        cases space
      rw [List.dropWhile_cons_of_neg (by simp [space]),List.dropWhile_cons_of_neg (by simpa using other)]

/- A piece with no blank at either end is trimmed. -/
theorem trimmedPlain (front : piece.head? ≠ some ' ') (back : piece.getLast? ≠ some ' ') : trimmed piece = piece := by
  have plain {s : Str} (front : s.head? ≠ some ' ') : (s.dropWhile fun c => c = ' ') = s := by
    cases s with
    | nil => rfl
    | cons c s =>
      have other : c ≠ ' ' := fun same => front (congrArg some same)
      rw [List.dropWhile_cons_of_neg (by simpa using other)]
  unfold trimmed
  rw [plain front,plain (by rw [List.head?_reverse]; exact back),List.reverse_reverse]

theorem keyWordTrims (blanks : OnlyBlanks piece) (letters : ¬ Blank piece) :
    keyWord piece = some (trimmed piece) := by
  unfold keyWord
  split
  · rename_i spaced
    have begin : piece.dropWhile isspace ≠ [] := fun none' =>
      letters ⟨spaced,List.dropWhile_eq_nil_iff.mp none'⟩
    have inside : OnlyBlanks (piece.dropWhile isspace).reverse := fun c mem =>
      blanks c ((List.dropWhile_sublist isspace).mem (List.mem_reverse.mp mem))
    have short : ((piece.dropWhile isspace).reverse.dropWhile isspace).reverse.length ≤ piece.length := by
      rw [List.length_reverse]
      refine Nat.le_trans (List.dropWhile_suffix isspace).length_le ?_
      rw [List.length_reverse]
      exact (List.dropWhile_suffix isspace).length_le
    unfold strstrip
    split
    · rename_i none'
      exact absurd none' begin
    · rw [List.take_of_length_le short,dropBlanks inside,dropBlanks blanks]
      rfl
  · rename_i plain
    rw [trimmedPlain (fun front => plain (.inl front)) fun back => plain (.inr back)]

/- A piece of blanks only is the one that is not taken. -/
theorem blankPiece (blanks : OnlyBlanks piece) :
    ¬ Blank piece ↔ piece = [] ∨ ∃ c ∈ piece, c ≠ ' ' := by
  constructor
  · intro letters
    cases piece with
    | nil => exact .inl rfl
    | cons c piece =>
      refine .inr ?_
      cases Decidable.em (∃ d ∈ c :: piece, d ≠ ' ') with
      | inl other => exact other
      | inr none' =>
        have all : ∀ d ∈ c :: piece, d = ' ' := fun d mem => Decidable.byContradiction fun other => none' ⟨d,mem,other⟩
        refine absurd ⟨.inl (congrArg some (all c List.mem_cons_self)),fun d mem => ?_⟩ letters
        rw [all d mem]
        rfl
  · rintro (rfl | ⟨c,mem,other⟩) ⟨ends,all⟩
    · rcases ends with no | no <;> cases no
    · exact other (blanks c mem (all c mem))

/- A piece of blanks only has no last letter for strstrip to end at. -/
theorem tokensSplit (buff : Str) (sep : Char) (some_ : buff ≠ []) (blanks : OnlyBlanks buff) :
    SplitsLikeSplit buff sep ↔ Lettered (buff.splitOn sep) := by
  have letters : (∀ piece ∈ buff.splitOn sep, ¬ Blank piece) ↔ Lettered (buff.splitOn sep) :=
    forall₂_congr fun piece piece_ => blankPiece fun c mem => blanks c (memPiece piece_ mem)
  unfold SplitsLikeSplit
  rw [getTokenListAre some_,← letters]
  split
  · rename_i all
    have each : (buff.splitOn sep).filterMap keyWord = (buff.splitOn sep).map trimmed := by
      rw [← List.filterMap_eq_map']
      exact List.filterMap_congr fun piece piece_ => keyWordTrims (fun c mem => blanks c (memPiece piece_ mem)) (all piece piece_)
    refine iff_of_true ⟨_,rfl,?_,each⟩ all
    rw [each,List.length_map,splitOnLength]
  · rename_i none'
    exact iff_of_false (fun ⟨_,no,_⟩ => by cases no) none'

/- Empty pieces at both ends and in the middle. -/
theorem barsSplit : SplitsLikeSplit "| TRACE ||DEBUG|".toList '|' :=
  (tokensSplit "| TRACE ||DEBUG|".toList '|' (by decide) (by decide)).mpr (by decide)

theorem blankBetweenBars : ¬ ∀ (buff : Str) (sep : Char), buff ≠ [] → sep ≠ ' ' →
    OnlyBlanks buff → SplitsLikeSplit buff sep := by
  intro claim
  obtain ⟨tokens,found,_⟩ := claim "TRACE| |DEBUG".toList '|' (by decide) (by decide) (by decide)
  have null : getTokenList "TRACE| |DEBUG".toList '|' = none := by decide
  rw [null] at found
  cases found

end Tokens

section Bits
variable {α : Type}

def bitOr (l : List Nat) : Nat := l.foldl (fun bits n => bits ||| n) 0

theorem foldBits (l : List α) (p : α → Bool) (bits : α → Nat) (start j : Nat) :
    (l.foldl (fun n a => if p a = true then n ||| bits a else n) start).testBit j =
      (start.testBit j || l.any fun a => p a && (bits a).testBit j) := by
  induction l generalizing start with
  | nil => simp only [List.foldl_nil,List.any_nil,Bool.or_false]
  | cons a l ih =>
    rw [List.foldl_cons,List.any_cons,ih]
    cases p a with
    | true => simp only [if_true,Nat.testBit_or,Bool.true_and,Bool.or_assoc]
    | false => simp only [Bool.false_eq_true,if_false,Bool.false_and,Bool.false_or]

theorem bitOrBits (l : List Nat) (j : Nat) : (bitOr l).testBit j = l.any fun n => n.testBit j := by
  have bits := foldBits l (fun _ => true) id 0 j
  rw [Nat.zero_testBit,Bool.false_or] at bits
  exact bits

end Bits

section Types
variable {ini : Dictionary} {name mname : Str}

def bitOf (token : Str) : Nat := (logTypeList.idxOf? token).elim 0 fun j => 1 <<< j

/- What a token stands for. -/
def bitsOf (token : Str) : Nat := if token = "ALLS".toList then bitOf token ||| llAllType else bitOf token

/- It is cut for a name of more than 237 characters. -/
def typeKey (name : Str) : Str := modulesSection ++ ':' :: name ++ '.' :: logAttrType

/- What is configured for the name, an empty text where nothing is. -/
def typeValue (ini : Dictionary) (name : Str) : Str := (ini.lookup ((typeKey name).map Char.toLower)).getD []

def typesOf (ini : Dictionary) (name : Str) : List Str := ((typeValue ini name).splitOn '|').filterMap keyWord

/- The name and those above it. -/
def lineage (mname : Str) : List Str :=
  mname :: (List.range mname.length).filterMap fun i => if mname[i]? = some '.' then some (mname.take i) else none

/- Or of what all of them list. -/
def inherited (ini : Dictionary) (mname : Str) : Nat := bitOr (((lineage mname).flatMap (typesOf ini)).map bitsOf)

theorem memLineage : name ∈ lineage mname ↔ name = mname ∨ Ancestor name mname := by
  unfold lineage
  rw [List.mem_cons,List.mem_filterMap]
  refine or_congr Iff.rfl ⟨?_,?_⟩
  · rintro ⟨i,_,cut⟩
    split at cut
    · rename_i dot
      cases Option.some.inj cut
      obtain ⟨inside,here⟩ := List.getElem?_eq_some_iff.mp dot
      refine ⟨mname.drop (i + 1),?_⟩
      rw [← here,List.getElem_cons_drop,List.take_append_drop]
    · cases cut
  · rintro ⟨rest,rfl⟩
    refine ⟨name.length,?_,?_⟩
    · rw [List.mem_range,List.length_append,List.length_cons]
      omega
    · rw [List.getElem?_append_right (Nat.le_refl _),Nat.sub_self,List.take_left]
      rfl

/- A place of the list is the first one of its word. -/
theorem bitOfBits (token : Str) (k : Nat) : (bitOf token).testBit k =
    (List.range logTypeList.length).any fun j => decide (logTypeList[j]? = some token) && (1 <<< j).testBit k := by
  have words : logTypeList.Nodup := by decide
  unfold bitOf
  cases found : logTypeList.idxOf? token with
  | none =>
    refine (Nat.zero_testBit k).trans (List.any_eq_false.mpr fun j _ => ?_).symm
    have absent : logTypeList[j]? ≠ some token := fun here =>
      List.idxOf?_eq_none_iff.mp found (List.mem_of_getElem? here)
    simp [absent]
  | some i =>
    obtain ⟨inside,word,_⟩ := List.idxOf?_eq_some_iff.mp found
    have here : logTypeList[i]? = some token := List.getElem?_eq_some_iff.mpr ⟨inside,word⟩
    rw [Option.elim_some,Bool.eq_iff_iff,List.any_eq_true]
    constructor
    · intro bit
      exact ⟨i,List.mem_range.mpr inside,by rw [here,decide_eq_true rfl,bit]; rfl⟩
    · rintro ⟨j,_,both⟩
      obtain ⟨there,bit⟩ := Bool.and_eq_true_iff.mp both
      have same := (List.getElem?_inj inside words).mp (here.trans (of_decide_eq_true there).symm)
      rw [same]
      exact bit

theorem allsBit (token : Str) : (bitOf token).testBit 7 = decide (token = "ALLS".toList) := by
  cases Decidable.em (token ∈ logTypeList) with
  | inl word =>
    have each : ∀ token ∈ logTypeList, (bitOf token).testBit 7 = decide (token = "ALLS".toList) := by decide
    exact each token word
  | inr other =>
    have alls : token ≠ "ALLS".toList := fun same => other (same ▸ by decide)
    unfold bitOf
    rw [List.idxOf?_eq_none_iff.mpr other,decide_eq_false alls]
    rfl

theorem noAlls (tokens : List Str) : bitOr (tokens.map bitOf) &&& llAlls = 0 ↔ "ALLS".toList ∉ tokens := by
  have eighth (j : Nat) : llAlls.testBit j = decide (j = 7) := by
    have shifted : llAlls = 1 <<< 7 := rfl
    rw [shifted,Nat.one_shiftLeft,Nat.testBit_two_pow]
    exact decide_eq_decide.mpr eq_comm
  have bit : (bitOr (tokens.map bitOf)).testBit 7 = false ↔ "ALLS".toList ∉ tokens := by
    rw [bitOrBits,List.any_map,List.any_eq_false]
    simp only [Function.comp_apply,allsBit,decide_eq_true_eq]
    exact ⟨fun other mem => other _ mem rfl,fun absent token mem same => absent (same ▸ mem)⟩
  rw [← bit]
  constructor
  · intro none'
    have here := congrArg (fun n => n.testBit 7) none'
    simp only [Nat.testBit_and,eighth,decide_true,Bool.and_true,Nat.zero_testBit] at here
    exact here
  · intro clear
    refine Nat.eq_of_testBit_eq fun j => ?_
    rw [Nat.testBit_and,eighth,Nat.zero_testBit]
    cases Decidable.em (j = 7) with
    | inl same => rw [same,clear,Bool.false_and]
    | inr other => rw [decide_eq_false other,Bool.and_false]

/- The bits of all tokens, and those of all types with ALLS. -/
theorem typeOfBits (tokens : List Str) : typeOf tokens = bitOr (tokens.map bitsOf) := by
  have inner (start : Nat) (token : Str) : (List.range logTypeList.length).foldl (fun type j =>
      if logTypeList[j]? = some token then type ||| 1 <<< j else type) start = start ||| bitOf token := by
    refine Nat.eq_of_testBit_eq fun k => ?_
    have bits := foldBits (List.range logTypeList.length) (fun j => decide (logTypeList[j]? = some token)) (fun j => 1 <<< j) start k
    simp only [decide_eq_true_eq] at bits
    rw [bits,Nat.testBit_or,bitOfBits]
  have each : tokens.foldl (fun type token => type ||| bitOf token) 0 = bitOr (tokens.map bitOf) := by
    rw [bitOr,List.foldl_map]
  unfold typeOf
  simp only [inner,each,noAlls]
  refine Nat.eq_of_testBit_eq fun k => ?_
  have type : (bitOr (tokens.map bitsOf)).testBit k =
      ((bitOr (tokens.map bitOf)).testBit k || decide ("ALLS".toList ∈ tokens) && llAllType.testBit k) := by
    have one (token : Str) : (bitsOf token).testBit k =
        ((bitOf token).testBit k || decide (token = "ALLS".toList) && llAllType.testBit k) := by
      unfold bitsOf
      split
      · rename_i same
        rw [Nat.testBit_or,decide_eq_true same,Bool.true_and]
      · rename_i other
        rw [decide_eq_false other,Bool.false_and,Bool.or_false]
    rw [bitOrBits,bitOrBits,List.any_map,List.any_map,Bool.eq_iff_iff]
    simp only [List.any_eq_true,Function.comp_apply,one,Bool.or_eq_true,Bool.and_eq_true,decide_eq_true_eq]
    constructor
    · rintro ⟨token,mem,bit | ⟨rfl,bit⟩⟩
      · exact .inl ⟨token,mem,bit⟩
      · exact .inr ⟨mem,bit⟩
    · rintro (⟨token,mem,bit⟩ | ⟨mem,bit⟩)
      · exact ⟨token,mem,.inl bit⟩
      · exact ⟨_,mem,.inr ⟨rfl,bit⟩⟩
  rw [type]
  split
  · rename_i absent
    rw [decide_eq_false absent,Bool.false_and,Bool.or_false]
  · rename_i listed
    rw [decide_eq_true (Decidable.not_not.mp listed),Bool.true_and,Nat.testBit_or]

theorem typeKeyLength (name : Str) : (typeKey name).length = name.length + 17 := by
  have sizes : modulesSection.length = 7 ∧ logAttrType.length = 8 := ⟨rfl,rfl⟩
  unfold typeKey
  rw [List.length_append,List.length_append,List.length_cons,List.length_cons,sizes.1,sizes.2]
  omega

/- A name whose key fits has the types of its own value. -/
theorem logTypeAre (fits : (typeKey name).length < maxModuleNameLen)
    (letters : ∀ piece ∈ (typeValue ini name).splitOn '|', ¬ Blank piece) :
    getLogType ini name = some (bitOr ((typesOf ini name).map bitsOf)) := by
  have whole : (typeKey name).take (maxModuleNameLen - 1) = typeKey name :=
    List.take_of_length_le (Nat.le_sub_one_of_lt fits)
  have read : getConfigAttribe ini modulesSection name (some logAttrType) =
      (ini.lookup ((typeKey name).map Char.toLower)).filter fun value => value ≠ [] := by
    rw [← whole]
    rfl
  unfold getLogType
  rw [read]
  unfold typesOf
  unfold typeValue at letters ⊢
  cases found : ini.lookup ((typeKey name).map Char.toLower) with
  | none => rfl
  | some value =>
    rw [found,Option.getD_some] at letters
    rw [Option.getD_some]
    cases value with
    | nil => rfl
    | cons c value =>
      have kept : (some (c :: value)).filter (fun value => decide (value ≠ [])) = some (c :: value) := rfl
      rw [kept]
      simp only [getTokenListAre (List.cons_ne_nil c value)]
      rw [if_pos letters,Option.map_some,typeOfBits]

/- The types of a name and of all above it. -/
theorem parentTypesAre {fuel : Nat} (enough : name.length ≤ fuel) (fits : (typeKey name).length < maxModuleNameLen)
    (letters : ∀ a, a = name ∨ Ancestor a name → ∀ piece ∈ (typeValue ini a).splitOn '|', ¬ Blank piece) :
    ∃ type, getParentLogType ini fuel name = some type ∧ ∀ k, type.testBit k = true ↔
      ∃ a, (a = name ∨ Ancestor a name) ∧ (bitOr ((typesOf ini a).map bitsOf)).testBit k = true := by
  have own := logTypeAre fits (letters name (.inl rfl))
  induction fuel generalizing name with
  | zero =>
    have top : parent name = none := by
      rw [List.eq_nil_of_length_eq_zero (Nat.le_zero.mp enough)]
      rfl
    refine ⟨_,own,fun k => ⟨fun bit => ⟨name,.inl rfl,bit⟩,?_⟩⟩
    rintro ⟨a,rfl | above,bit⟩
    · exact bit
    · exact absurd above (noAncestor top)
  | succ fuel ih =>
    unfold getParentLogType
    rw [own,Option.bind_some]
    cases found : parent name with
    | none =>
      refine ⟨_,rfl,fun k => ⟨fun bit => ⟨name,.inl rfl,bit⟩,?_⟩⟩
      rintro ⟨a,rfl | above,bit⟩
      · exact bit
      · exact absurd above (noAncestor found)
    | some above =>
      have step {a : Str} := ancestorStep (a := a) found
      have shorter := parentShorter found
      rw [typeKeyLength] at fits
      have fits' : (typeKey above).length < maxModuleNameLen := by
        rw [typeKeyLength]
        omega
      have letters' : ∀ a, a = above ∨ Ancestor a above → ∀ piece ∈ (typeValue ini a).splitOn '|', ¬ Blank piece :=
        fun a which => letters a (.inr (step.mpr which))
      obtain ⟨type,walked,bits⟩ := ih (show above.length ≤ fuel by omega) fits' letters' (logTypeAre fits' (letters' above (.inl rfl)))
      refine ⟨bitOr ((typesOf ini name).map bitsOf) ||| type,?_,fun k => ?_⟩
      · simp only [if_neg (show ¬ maxModuleNameLen < above.length by omega),walked]
        rfl
      · rw [Nat.testBit_or,Bool.or_eq_true,bits]
        simp only [step]
        constructor
        · rintro (bit | ⟨a,which,bit⟩)
          · exact ⟨name,.inl rfl,bit⟩
          · exact ⟨a,.inr which,bit⟩
        · rintro ⟨a,rfl | which,bit⟩
          · exact .inl bit
          · exact .inr ⟨a,which,bit⟩

/- What 1. of get_module_cfg_entry assigns to log_type_. -/
theorem firstPart (fits : (typeKey mname).length < maxModuleNameLen)
    (letters : ∀ name ∈ lineage mname, ∀ piece ∈ (typeValue ini name).splitOn '|', ¬ Blank piece) :
    ((getLogType ini mname).bind fun type =>
      (if '.' ∈ mname then getParentLogType ini mname.length mname else some 0).map fun parentType => type ||| parentType) =
      some (inherited ini mname) := by
  have letters' : ∀ a, a = mname ∨ Ancestor a mname → ∀ piece ∈ (typeValue ini a).splitOn '|', ¬ Blank piece :=
    fun a which => letters a (memLineage.mpr which)
  have bits (k : Nat) : (inherited ini mname).testBit k = true ↔
      ∃ a, (a = mname ∨ Ancestor a mname) ∧ (bitOr ((typesOf ini a).map bitsOf)).testBit k = true := by
    simp only [inherited,bitOrBits,List.any_map,List.any_flatMap,List.any_eq_true,memLineage]
  obtain ⟨type,walked,above⟩ := parentTypesAre (Nat.le_refl _) fits letters'
  rw [logTypeAre fits (letters' mname (.inl rfl)),Option.bind_some]
  split
  · rw [walked,Option.map_some]
    refine congrArg some (Nat.eq_of_testBit_eq fun k => ?_)
    rw [Bool.eq_iff_iff,Nat.testBit_or,Bool.or_eq_true,above,bits]
    exact ⟨fun either => either.elim (fun bit => ⟨mname,.inl rfl,bit⟩) id,.inr⟩
  · rename_i fresh
    have top := parentNone.mpr fresh
    rw [Option.map_some]
    refine congrArg some (Nat.eq_of_testBit_eq fun k => ?_)
    rw [Bool.eq_iff_iff,Nat.or_zero,bits]
    constructor
    · exact fun bit => ⟨mname,.inl rfl,bit⟩
    · rintro ⟨a,rfl | higher,bit⟩
      · exact bit
      · exact absurd higher (noAncestor top)

end Types

section Entries
variable {ini : Dictionary} {mname : Str}

/- What the own list negates. -/
def negations (ini : Dictionary) (mname : Str) : List Str :=
  (((outputsRead ini mname).filter negated).map List.tail).filter fun s => s ≠ []

/- No key word of blanks among the outputs, and each negated one is there to be erased. -/
def OutputsDefined (ini : Dictionary) (mname : Str) : Prop :=
  (∀ name ∈ lineage mname, ∀ item ∈ itemsRead ini logAttrOutput ',' name, ¬ Blank item) ∧
    (∀ s ∈ negations ini mname, Gathered ini mname s) ∧ (negations ini mname).Nodup

theorem eraseNegDefined {outputs neg : List Str} (nodup : outputs.Nodup) : (eraseNeg outputs neg).isSome ↔
    (∀ s ∈ (neg.map List.tail).filter (fun s => s ≠ []), s ∈ outputs) ∧
      ((neg.map List.tail).filter fun s => s ≠ []).Nodup := by
  induction neg generalizing outputs with
  | nil => exact iff_of_true rfl ⟨fun s no => (by cases no),List.nodup_nil⟩
  | cons n neg ih =>
    unfold eraseNeg
    simp only [List.map_cons]
    split
    · rename_i empty
      rw [ih nodup,List.filter_cons_of_neg (by simp [empty])]
    · rename_i some_
      rw [List.filter_cons_of_pos (by simp [some_])]
      split
      · rename_i here
        rw [ih (nodup.erase n.tail),List.forall_mem_cons,List.nodup_cons]
        constructor
        · rintro ⟨later,distinct⟩
          refine ⟨⟨here,fun s mem => List.mem_of_mem_erase (later s mem)⟩,fun again => ?_,distinct⟩
          exact nodup.not_mem_erase (later n.tail again)
        · rintro ⟨⟨_,later⟩,once,distinct⟩
          refine ⟨fun s mem => ?_,distinct⟩
          have other : s ≠ n.tail := fun same => once (same ▸ mem)
          exact (List.mem_erase_of_ne other).mpr (later s mem)
      · rename_i absent
        exact iff_of_false (fun no => by cases no) fun all => absent (all.1 n.tail List.mem_cons_self)

theorem outputsDefined (fits : mname.length ≤ maxModuleNameLen) :
    (resolveOutputs ini mname).isSome ↔ OutputsDefined ini mname := by
  have readable : (∀ name ∈ lineage mname, ∀ item ∈ itemsRead ini logAttrOutput ',' name, ¬ Blank item) ↔
      ∀ name, name = mname ∨ Ancestor name mname → (getLogOutput ini name).isSome := by
    simp only [memLineage,logOutputRead,isSomeIf]
  unfold OutputsDefined
  rw [readable]
  rcases resolveOutputsAre ini fits with ⟨⟨name,which,failed⟩,none'⟩ | ⟨all,gathered,resolved,nodup,mem⟩
  · refine iff_of_false (fun no => ?_) fun ⟨all,_⟩ => ?_
    · rw [none'] at no
      cases no
    · have read := all name which
      rw [failed] at read
      cases read
  · rw [resolved,eraseNegDefined nodup]
    simp only [mem]
    exact ⟨fun both => ⟨all,both⟩,And.right⟩

end Entries

/- log_type_ is always assigned; the outputs that follow may be undefined. -/
theorem typesInherit (ini : Dictionary) (mname : Str) (fits : (typeKey mname).length < maxModuleNameLen)
    (letters : ∀ name ∈ lineage mname, ∀ piece ∈ (typeValue ini name).splitOn '|', ¬ Blank piece) :
    ((getLogType ini mname).bind fun type =>
      (if '.' ∈ mname then getParentLogType ini mname.length mname else some 0).map fun parentType => type ||| parentType) =
      some (inherited ini mname) ∧
    ((∃ entry, getModuleCfgEntry (some ini) mname = some entry ∧ entry.logType = inherited ini mname) ↔
      OutputsDefined ini mname) := by
  have first := firstPart fits letters
  refine ⟨first,?_⟩
  have short : mname.length ≤ maxModuleNameLen := by
    rw [typeKeyLength] at fits
    omega
  rw [← outputsDefined short]
  obtain ⟨type,own,rest⟩ := Option.bind_eq_some_iff.mp first
  obtain ⟨parentType,above,same⟩ := Option.map_eq_some_iff.mp rest
  unfold getModuleCfgEntry
  simp only [own,above,Option.bind_some]
  cases resolveOutputs ini mname with
  | none => exact iff_of_false (fun ⟨_,no,_⟩ => by cases no) fun no => by cases no
  | some outputs => exact iff_of_true ⟨_,rfl,same⟩ rfl

/- A module two names below root lists nothing of its own. -/
def typesConfig : Dictionary :=
  [("modules:root.__type__".toList,"ALLS".toList),("modules:root.http.__type__".toList,"SHUTDOWN | TRACE".toList)]

theorem grandchildInherits : ∃ entry, getModuleCfgEntry (some typesConfig) "root.http.client".toList = some entry ∧
    entry.logType = inherited typesConfig "root.http.client".toList := by
  have plain : negations typesConfig "root.http.client".toList = [] := by decide
  refine (typesInherit typesConfig "root.http.client".toList (by decide) (by decide)).2.mpr ⟨by decide,fun s mem => ?_,?_⟩
  · rw [plain] at mem
    cases mem
  · rw [plain]
    exact List.nodup_nil

example : inherited typesConfig "root.http.client".toList = 0xff := by decide

/- An output that is negated and not there: what follows the types erases past the end. -/
theorem negationEndsEntry : ¬ ∀ (ini : Dictionary) (mname : Str), (typeKey mname).length < maxModuleNameLen →
    (∀ name ∈ lineage mname, ∀ piece ∈ (typeValue ini name).splitOn '|', ¬ Blank piece) →
    ∃ entry, getModuleCfgEntry (some ini) mname = some entry ∧ entry.logType = inherited ini mname := by
  intro claim
  obtain ⟨entry,found,_⟩ := claim [("modules:root.__type__".toList,"TRACE".toList),
    ("modules:root.__output__".toList,"~file_output".toList)] "root".toList (by decide) (by decide)
  have past : getModuleCfgEntry (some [("modules:root.__type__".toList,"TRACE".toList),
    ("modules:root.__output__".toList,"~file_output".toList)]) "root".toList = none := by decide
  rw [past] at found
  cases found

end CuteNdk.Log
