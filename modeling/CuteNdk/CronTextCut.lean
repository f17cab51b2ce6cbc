import CuteNdk.CronText

/-! The private copy of parse_cron_entry: stripping, lower case and the names leave the
number of fields as it is, and cutting it gives its first four fields and the rest of
the text, or runs past the terminator where there are fewer than five. -/
namespace CuteNdk.CronText
open Lib.CString

/- A text without blanks, such as a name or a number. -/
def Solid (s : Str) : Prop := s ≠ [] ∧ ∀ c ∈ s, isspace c = false ∧ c ≠ NUL
instance (s) : Decidable (Solid s) :=
  decidable_of_iff (s.isEmpty = false ∧ s.all (fun c => !isspace c && c != NUL) = true) (by simp [Solid])

/- What strstrip leaves of a text that is not blank, and the later steps keep. -/
structure Trimmed (s : Str) : Prop where
  some_ : s ≠ []
  head : ∀ c ∈ s.head?, isspace c = false
  last : ∀ c ∈ s.getLast?, isspace c = false
  noNul : NUL ∉ s

/- The fields of a text, that is how often one begins from a place in a field or not. -/
def fieldCount : Bool → Str → Nat
  | _, [] => 0
  | inside, c :: s => if isspace c then fieldCount false s else (if inside then 0 else 1) + fieldCount true s

def fields (s : Str) : List Str := (s.splitOnP isspace).filter fun t => !t.isEmpty

section Count
variable {s t w : Str} {inside : Bool}

theorem countSolid (solid : Solid w) :
    fieldCount inside (w ++ s) = (if inside then 0 else 1) + fieldCount true s := by
  obtain ⟨some_,free⟩ := solid
  induction w generalizing inside with
  | nil => exact absurd rfl some_
  | cons c w ih =>
    have here := (free c List.mem_cons_self).1
    simp only [List.cons_append,fieldCount,here,Bool.false_eq_true,if_false]
    by_cases more : w = []
    · rw [more]
      rfl
    · rw [ih more fun d hd => free d (List.mem_cons_of_mem c hd)]
      simp

theorem countAppend (same : ∀ inside, fieldCount inside s = fieldCount inside t) (pre : Str) :
    fieldCount inside (pre ++ s) = fieldCount inside (pre ++ t) := by
  induction pre generalizing inside with
  | nil => exact same inside
  | cons c pre ih => simp only [List.cons_append,fieldCount,ih]

/- One word in place of another. -/
theorem countReplace {v : Str} (solid : Solid w) (solid' : Solid v) (pre post : Str) :
    fieldCount inside (pre ++ (w ++ post)) = fieldCount inside (pre ++ (v ++ post)) :=
  countAppend (fun inside => by rw [countSolid solid,countSolid solid']) pre

theorem countBlanks {blanks : Str} (blank : ∀ c ∈ blanks, isspace c = true) :
    fieldCount false (blanks ++ s) = fieldCount false s := by
  induction blanks with
  | nil => rfl
  | cons c blanks ih =>
    have here := blank c List.mem_cons_self
    simp only [List.cons_append,fieldCount,here,if_true]
    exact ih fun d hd => blank d (List.mem_cons_of_mem c hd)

theorem countTrailing {blanks : Str} (blank : ∀ c ∈ blanks, isspace c = true) (s : Str) :
    fieldCount inside (s ++ blanks) = fieldCount inside s := by
  have none_ : ∀ inside, fieldCount inside blanks = fieldCount inside [] := by
    intro inside
    cases blanks with
    | nil => rfl
    | cons c blanks =>
      have all := countBlanks (s := []) fun d hd => blank d (List.mem_cons_of_mem c hd)
      rw [List.append_nil] at all
      simp only [fieldCount,blank c List.mem_cons_self,if_true,all]
  rw [countAppend none_ s,List.append_nil]

theorem countLower (s : Str) (lower : ∀ c ∈ s, isspace (Char.toLower c) = isspace c) :
    fieldCount inside (s.map Char.toLower) = fieldCount inside s := by
  induction s generalizing inside with
  | nil => rfl
  | cons c s ih =>
    have rest : ∀ inside, fieldCount inside (s.map Char.toLower) = fieldCount inside s :=
      fun inside => ih fun d hd => lower d (List.mem_cons_of_mem c hd)
    simp only [List.map_cons,fieldCount,lower c List.mem_cons_self,rest]

theorem countFields (s : Str) : fieldCount false s = (fields s).length ∧
    fieldCount true s = ((s.splitOnP isspace).tail.filter fun t => !t.isEmpty).length := by
  unfold fields
  induction s with
  | nil => exact ⟨rfl,rfl⟩
  | cons c s ih =>
    obtain ⟨w,ws,split⟩ := List.exists_cons_of_ne_nil (List.splitOnP_ne_nil isspace s)
    rw [split] at ih
    rw [List.splitOnP_cons_eq_if_modifyHead,split]
    cases blank : isspace c with
    | true => simpa [fieldCount,blank] using ih.1
    | false =>
      have later : fieldCount true s = (ws.filter fun t => !t.isEmpty).length := ih.2
      simp only [fieldCount,blank,Bool.false_eq_true,if_false,if_true,List.modifyHead_cons,List.tail_cons]
      refine ⟨?_,by rw [later]; exact Nat.zero_add _⟩
      simp [later,Nat.add_comm]

end Count

section Names
variable {s key pre post : Str} {n : Nat}

theorem solidRange {c : Char} (high : 33 ≤ c.toNat) : isspace c = false ∧ c ≠ NUL := by
  have apart : ∀ d : Char, d.toNat < 33 → c ≠ d := by
    rintro d low rfl
    omega
  refine ⟨?_,apart NUL (by decide)⟩
  simp only [isspace,Bool.or_eq_false_iff,beq_eq_false_iff_ne,decide_eq_false_iff_not]
  exact ⟨apart ' ' (by decide),by omega⟩

/- tolower neither makes nor takes away a blank or a terminator. -/
theorem lowerKeeps (c : Char) : isspace c.toLower = isspace c ∧ (c.toLower = NUL → c = NUL) := by
  unfold Char.toLower
  split
  · rename_i upper
    have low : 65 ≤ c.toNat ∧ c.toNat ≤ 90 := by
      simpa [UInt32.le_iff_toNat_le] using upper
    have here := solidRange (c := c) (by omega)
    have there : ∀ v, isspace ⟨c.val + ('a'.val - 'A'.val),v⟩ = false ∧ (⟨c.val + ('a'.val - 'A'.val),v⟩ : Char) ≠ NUL := by
      intro v
      refine solidRange ?_
      have sum : (c.val + ('a'.val - 'A'.val)).toNat = c.toNat + 32 := by
        rw [UInt32.toNat_add]
        change (c.toNat + 32) % 2 ^ 32 = c.toNat + 32
        omega
      change 33 ≤ (c.val + ('a'.val - 'A'.val)).toNat
      omega
    exact ⟨(there _).1.trans here.1.symm,fun same => absurd same (there _).2⟩
  · exact ⟨rfl,id⟩

theorem digitsSolid (small : n < 100) : Solid (digits n) ∧ (digits n).length ≤ 2 := by
  have all : ∀ n < 100, Solid (digits n) ∧ (digits n).length ≤ 2 := by decide
  exact all n small

theorem trimmedLower (h : Trimmed s) : Trimmed (s.map Char.toLower) := by
  refine ⟨by simpa using h.some_,fun c hc => ?_,fun c hc => ?_,fun mem => ?_⟩
  · rw [List.head?_map] at hc
    obtain ⟨d,hd,rfl⟩ := Option.map_eq_some_iff.mp hc
    exact (lowerKeeps d).1.trans (h.head d hd)
  · rw [List.getLast?_map] at hc
    obtain ⟨d,hd,rfl⟩ := Option.map_eq_some_iff.mp hc
    exact (lowerKeeps d).1.trans (h.last d hd)
  · obtain ⟨d,hd,same⟩ := List.mem_map.mp mem
    exact h.noNul ((lowerKeeps d).2 same ▸ hd)

theorem trimmedReplace {v w : Str} (h : Trimmed (pre ++ (w ++ post))) (solid : Solid v) :
    Trimmed (pre ++ (v ++ post)) := by
  obtain ⟨some_,free⟩ := solid
  refine ⟨by simp [some_],fun c hc => ?_,fun c hc => ?_,fun mem => ?_⟩
  · cases pre with
    | nil =>
      rw [List.nil_append,List.head?_append_of_ne_nil _ some_] at hc
      exact (free c (List.mem_of_mem_head? hc)).1
    | cons d pre => exact h.head c hc
  · cases post with
    | nil =>
      rw [List.append_nil,List.getLast?_append_of_ne_nil _ some_] at hc
      exact (free c (List.mem_of_getLast? hc)).1
    | cons d post =>
      refine h.last c ?_
      rw [List.getLast?_append_of_ne_nil _ (by simp),List.getLast?_append_of_ne_nil _ (List.cons_ne_nil d post)] at hc ⊢
      exact hc
  · rcases List.mem_append.mp mem with before | after
    · exact h.noNul (List.mem_append_left _ before)
    · rcases List.mem_append.mp after with inside | after
      · exact (free NUL inside).2 rfl
      · exact h.noNul (List.mem_append_right _ (List.mem_append_right _ after))

/- Each turn takes out a name of three characters and puts in a number of fewer, so
that the loop ends before the fuel does. -/
theorem replaceFromKeeps (solid : Solid key) (three : key.length = 3) (small : n < 100) {fuel : Nat}
    (enough : s.length < fuel) (h : Trimmed s) : ∃ s', replaceFrom key n fuel s = some s' ∧ Trimmed s' ∧
      fieldCount false s' = fieldCount false s := by
  induction fuel generalizing s with
  | zero => omega
  | succ fuel ih =>
    unfold replaceFrom
    cases found : strstr s key with
    | none => exact ⟨s,rfl,h,rfl⟩
    | some p =>
      obtain ⟨⟨post,rfl⟩,⟨pre,rfl⟩⟩ := strstrFound found
      obtain ⟨number,short⟩ := digitsSolid small
      have cut : (pre ++ (key ++ post)).take ((pre ++ (key ++ post)).length - (key ++ post).length) = pre := by
        simp
      have rest : (key ++ post).drop 3 = post := by
        rw [← three,List.drop_left]
      simp only [cut,rest]
      obtain ⟨s',runs,trimmed,count⟩ := ih (s := pre ++ (digits n ++ post))
        (by simp only [List.length_append] at enough ⊢; omega) (trimmedReplace h number)
      exact ⟨s',runs,trimmed,count.trans (countReplace number solid pre post)⟩

theorem replaceEachKeeps {list : List Str} (keys : ∀ key ∈ list, Solid key ∧ key.length = 3)
    (small : n + list.length ≤ 100) (h : Trimmed s) : ∃ s', replaceEach list n s = some s' ∧ Trimmed s' ∧
      fieldCount false s' = fieldCount false s := by
  induction list generalizing n s with
  | nil => exact ⟨s,rfl,h,rfl⟩
  | cons key list ih =>
    obtain ⟨solid,three⟩ := keys key List.mem_cons_self
    rw [List.length_cons] at small
    obtain ⟨s₁,runs₁,trimmed₁,count₁⟩ :=
      replaceFromKeeps (n := n) solid three (by omega) (Nat.lt_succ_self s.length) h
    obtain ⟨s₂,runs₂,trimmed₂,count₂⟩ :=
      ih (fun k hk => keys k (List.mem_cons_of_mem key hk)) (n := n + 1) (by omega) trimmed₁
    refine ⟨s₂,?_,trimmed₂,count₂.trans count₁⟩
    simp only [replaceEach,replace,runs₁,bind,Option.bind]
    exact runs₂

theorem numericKeeps (h : Trimmed s) : ∃ s', numeric s = some s' ∧ Trimmed s' ∧
    fieldCount false s' = fieldCount false s := by
  obtain ⟨s₁,runs₁,trimmed₁,count₁⟩ :=
    @replaceEachKeeps _ 1 monthList (by decide) (by decide) (trimmedLower h)
  obtain ⟨s₂,runs₂,trimmed₂,count₂⟩ :=
    @replaceEachKeeps _ 0 wdayList (by decide) (by decide) trimmed₁
  refine ⟨s₂,?_,trimmed₂,(count₂.trans count₁).trans (countLower s fun c _ => (lowerKeeps c).1)⟩
  simp only [numeric,runs₁,bind,Option.bind]
  exact runs₂

/- strstrip of a text that is not blank. -/
theorem stripKeeps {en : Str} (noNul : NUL ∉ en) (text : en.dropWhile isspace ≠ []) :
    Trimmed ((en.dropWhile isspace).rdropWhile isspace) ∧
      fieldCount false ((en.dropWhile isspace).rdropWhile isspace) = fieldCount false en := by
  have head : ∀ c ∈ (en.dropWhile isspace).head?, isspace c = false := by
    intro c hc
    have other := List.head?_dropWhile_not isspace en
    rw [Option.mem_def.mp hc] at other
    simpa using other
  obtain ⟨c,rest,start⟩ := List.exists_cons_of_ne_nil text
  have first : isspace c = false := head c (by rw [start]; rfl)
  have some_ : (en.dropWhile isspace).rdropWhile isspace ≠ [] := by
    rw [ne_eq,List.rdropWhile_eq_nil_iff]
    intro all
    have blank := all c (by rw [start]; exact List.mem_cons_self)
    rw [first] at blank
    cases blank
  have front := List.rdropWhile_prefix isspace (l := en.dropWhile isspace)
  refine ⟨⟨some_,fun d hd => ?_,fun d hd => ?_,fun mem => ?_⟩,?_⟩
  · obtain ⟨more,whole⟩ := front
    refine head d ?_
    rw [← whole,List.head?_append_of_ne_nil _ some_]
    exact hd
  · have last := List.rdropWhile_last_not isspace (en.dropWhile isspace) some_
    rw [List.getLast?_eq_some_getLast some_] at hd
    cases Option.some.inj hd
    simpa using last
  · exact noNul ((List.dropWhile_suffix isspace).subset (front.subset mem))
  · have back : fieldCount false (en.dropWhile isspace)
        = fieldCount false ((en.dropWhile isspace).rdropWhile isspace) := by
      have blank : ∀ c ∈ (en.dropWhile isspace).rtakeWhile isspace, isspace c = true := fun c hc =>
        List.mem_rtakeWhile_imp hc
      have whole := @countTrailing false _ blank ((en.dropWhile isspace).rdropWhile isspace)
      rwa [List.rdropWhile_append_rtakeWhile] at whole
    have front : fieldCount false (en.takeWhile isspace ++ en.dropWhile isspace)
        = fieldCount false (en.dropWhile isspace) :=
      countBlanks (List.all_eq_true.mp List.all_takeWhile)
    rw [List.takeWhile_append_dropWhile] at front
    rw [front,back]

end Names

def notBlank (c : Char) : Bool := !isspace c

/- The first field of a text and the text from the second one on. -/
def nextField (s : Str) : Option (Str × Str) :=
  if (s.dropWhile notBlank).dropWhile isspace = [] then none
  else some (s.takeWhile notBlank,(s.dropWhile notBlank).dropWhile isspace)

/- A text as its first field, the blanks after that and the rest. -/
structure Cut (s word : Str) (blank : Char) (blanks rest : Str) : Prop where
  text : s = word ++ blank :: (blanks ++ rest)
  solid : Solid word
  gap : isspace blank = true ∧ ∀ c ∈ blanks, isspace c = true
  rest : Trimmed rest

section Cuts
variable {s word blanks rest pre : Str} {blank : Char}

/- A text either is one field or can be cut. -/
theorem cutCases (h : Trimmed s) :
    (nextField s = none ∧ Solid s) ∨
      ∃ word blank blanks rest, nextField s = some (word,rest) ∧ Cut s word blank blanks rest := by
  have free : ∀ c ∈ s.takeWhile notBlank, isspace c = false := fun c hc => by
    simpa [notBlank] using List.all_eq_true.mp List.all_takeWhile c hc
  have noNul : ∀ c ∈ s, c ≠ NUL := fun c hc same => h.noNul (same ▸ hc)
  have split : s = s.takeWhile notBlank ++ s.dropWhile notBlank := List.takeWhile_append_dropWhile.symm
  cases later : s.dropWhile notBlank with
  | nil =>
    rw [later,List.append_nil] at split
    refine .inl ⟨?_,h.some_,fun c hc => ⟨free c (split ▸ hc),noNul c hc⟩⟩
    unfold nextField
    rw [later]
    rfl
  | cons b t =>
    have blank : isspace b = true := by
      have other := List.head?_dropWhile_not notBlank s
      rw [later] at other
      simpa [notBlank] using other
    have first : s.takeWhile notBlank ≠ [] := by
      intro none_
      rw [none_,later] at split
      have head := h.head b (by rw [split]; rfl)
      rw [blank] at head
      cases head
    have tail : t = t.takeWhile isspace ++ t.dropWhile isspace := List.takeWhile_append_dropWhile.symm
    have blanks : ∀ c ∈ t.takeWhile isspace, isspace c = true := List.all_eq_true.mp List.all_takeWhile
    have whole : s = s.takeWhile notBlank ++ b :: (t.takeWhile isspace ++ t.dropWhile isspace) := by
      rw [← tail,← later]
      exact split
    have some_ : t.dropWhile isspace ≠ [] := by
      intro none_
      rw [none_,List.append_nil] at whole
      obtain ⟨c,hc⟩ : ∃ c, (b :: t.takeWhile isspace).getLast? = some c :=
        ⟨_,List.getLast?_eq_some_getLast (List.cons_ne_nil b _)⟩
      have last := h.last c (by rw [whole,List.getLast?_append_of_ne_nil _ (List.cons_ne_nil b _)]; exact hc)
      have all : isspace c = true := by
        rcases List.mem_cons.mp (List.mem_of_getLast? hc) with rfl | inside
        · exact blank
        · exact blanks c inside
      rw [all] at last
      cases last
    have gap : (b :: t).dropWhile isspace = t.dropWhile isspace := by simp [blank]
    refine .inr ⟨s.takeWhile notBlank,b,t.takeWhile isspace,t.dropWhile isspace,?_,whole,⟨first,fun c hc =>
      ⟨free c hc,noNul c (split ▸ List.mem_append_left _ hc)⟩⟩,⟨blank,blanks⟩,some_,fun c hc => ?_,fun c hc => ?_,fun mem => ?_⟩
    · unfold nextField
      rw [later,gap,if_neg some_]
    · have other := List.head?_dropWhile_not isspace t
      rw [Option.mem_def.mp hc] at other
      simpa using other
    · refine h.last c ?_
      rw [whole,List.getLast?_append_of_ne_nil _ (List.cons_ne_nil b _),← List.cons_append,
        List.getLast?_append_of_ne_nil _ some_]
      exact hc
    · have inTail : NUL ∈ b :: t := List.mem_cons_of_mem b ((List.dropWhile_suffix isspace).subset mem)
      exact h.noNul ((List.dropWhile_suffix notBlank).subset (later ▸ inTail))

theorem cutCount (h : Cut s word blank blanks rest) : fieldCount false s = 1 + fieldCount false rest := by
  rw [h.text,countSolid h.solid]
  have gap : fieldCount true (blank :: (blanks ++ rest)) = fieldCount false (blanks ++ rest) := by
    simp [fieldCount,h.gap.1]
  rw [gap,countBlanks h.gap.2]
  rfl

theorem solidCount (h : Solid s) : fieldCount false s = 1 := by
  have alone := @countSolid [] s false h
  rwa [List.append_nil] at alone

end Cuts

section Bytes
variable {pre word gap rest : Str} {c : Char}

theorem skipFieldStops {fuel : Nat} (free : ∀ d ∈ word, isspace d = false) (blank : isspace c = true)
    (enough : word.length < fuel) :
    skipField (pre ++ (word ++ c :: rest)) fuel pre.length = some (pre.length + word.length) := by
  induction word generalizing pre fuel with
  | nil =>
    obtain ⟨fuel,rfl⟩ : ∃ n, fuel = n + 1 := ⟨fuel - 1,by simp only [List.length_nil] at enough; omega⟩
    simp [skipField,blank]
  | cons d word ih =>
    obtain ⟨fuel,rfl⟩ : ∃ n, fuel = n + 1 := ⟨fuel - 1,by omega⟩
    have here := free d List.mem_cons_self
    have next := @ih (pre ++ [d]) fuel (fun e he => free e (List.mem_cons_of_mem d he)) (Nat.lt_of_succ_lt_succ enough)
    simp only [List.append_assoc,List.singleton_append,List.length_append,List.length_singleton] at next
    simp only [skipField,List.cons_append,List.getElem?_append_right (Nat.le_refl pre.length),Nat.sub_self,
      List.getElem?_cons_zero,bind,Option.bind,here,Bool.false_eq_true,if_false,next,List.length_cons]
    exact congrArg some (by omega)

/- Without a blank the pointer runs out of the copy. -/
theorem skipFieldRuns {fuel : Nat} (free : ∀ d ∈ word, isspace d = false) :
    skipField (pre ++ word) fuel pre.length = none := by
  induction word generalizing pre fuel with
  | nil =>
    cases fuel with
    | zero => rfl
    | succ fuel => simp [skipField]
  | cons d word ih =>
    cases fuel with
    | zero => rfl
    | succ fuel =>
      have here := free d List.mem_cons_self
      have next := @ih (pre ++ [d]) fuel fun e he => free e (List.mem_cons_of_mem d he)
      simp only [List.append_assoc,List.singleton_append,List.length_append,List.length_singleton] at next
      simp only [skipField,List.getElem?_append_right (Nat.le_refl pre.length),Nat.sub_self,
        List.getElem?_cons_zero,bind,Option.bind,here,Bool.false_eq_true,if_false,next]

theorem skipGapStops {fuel : Nat} (blank : ∀ d ∈ gap, isspace d = true ∨ d = NUL) (stop : isspace c = false ∧ c ≠ NUL)
    (enough : gap.length < fuel) :
    skipGap (pre ++ (gap ++ c :: rest)) fuel pre.length = some (pre.length + gap.length) := by
  induction gap generalizing pre fuel with
  | nil =>
    obtain ⟨fuel,rfl⟩ : ∃ n, fuel = n + 1 := ⟨fuel - 1,by simp only [List.length_nil] at enough; omega⟩
    simp [skipGap,stop]
  | cons d gap ih =>
    obtain ⟨fuel,rfl⟩ : ∃ n, fuel = n + 1 := ⟨fuel - 1,by omega⟩
    have here := blank d List.mem_cons_self
    have next := @ih (pre ++ [d]) fuel (fun e he => blank e (List.mem_cons_of_mem d he)) (Nat.lt_of_succ_lt_succ enough)
    simp only [List.append_assoc,List.singleton_append,List.length_append,List.length_singleton] at next
    simp only [skipGap,List.cons_append,List.getElem?_append_right (Nat.le_refl pre.length),Nat.sub_self,
      List.getElem?_cons_zero,bind,Option.bind,if_pos here,next,List.length_cons]
    exact congrArg some (by omega)

theorem cstrReads (free : NUL ∉ word) : cstr (pre ++ (word ++ NUL :: rest)) pre.length = word := by
  unfold cstr
  rw [List.drop_left]
  have all : ∀ d ∈ word, (d != NUL) = true := fun d hd => by
    simpa using fun same : d = NUL => free (same ▸ hd)
  rw [List.takeWhile_append_of_pos all]
  simp

/- _ADVANCE where the text from p on can be cut: the field is terminated, and p is at
the rest. -/
theorem advanceCuts {s blanks : Str} {blank : Char} (h : Cut s word blank blanks rest) :
    ∃ gap, advance (pre ++ (s ++ [NUL])) pre.length =
      some ((pre ++ (word ++ NUL :: gap)) ++ (rest ++ [NUL]),(pre ++ (word ++ NUL :: gap)).length) := by
  obtain ⟨c,rest',same⟩ := List.exists_cons_of_ne_nil h.rest.some_
  have stop : isspace c = false ∧ c ≠ NUL := by
    refine ⟨h.rest.head c (by rw [same]; rfl),fun nul => h.rest.noNul ?_⟩
    rw [same,nul]
    exact List.mem_cons_self
  have text : pre ++ (s ++ [NUL]) = pre ++ (word ++ blank :: (blanks ++ (c :: rest' ++ [NUL]))) := by
    rw [h.text,same]
    simp
  have field : skipField (pre ++ (s ++ [NUL])) ((pre ++ (s ++ [NUL])).length + 1) pre.length
      = some (pre.length + word.length) := by
    rw [text]
    refine skipFieldStops (fun d hd => (h.solid.2 d hd).1) h.gap.1 ?_
    simp only [List.length_append]
    omega
  obtain ⟨b₁,def₁⟩ : ∃ b, b = pre ++ (word ++ NUL :: (blanks ++ (c :: rest' ++ [NUL]))) := ⟨_,rfl⟩
  have stored : store (pre ++ (s ++ [NUL])) (pre.length + word.length) NUL = some b₁ := by
    unfold store
    rw [text,if_pos (by simp only [List.length_append,List.length_cons]; omega),def₁]
    simp
  have length₁ : b₁.length = pre.length + word.length + blanks.length + rest'.length + 3 := by
    rw [def₁]
    simp only [List.length_append,List.length_cons,List.length_nil]
    omega
  have skipped : skipGap b₁ (b₁.length + 1) (pre.length + word.length)
      = some (pre.length + word.length + (blanks.length + 1)) := by
    have assoc : b₁ = (pre ++ word) ++ ((NUL :: blanks) ++ c :: (rest' ++ [NUL])) := by
      rw [def₁]
      simp
    have stops := @skipGapStops (pre ++ word) (NUL :: blanks) (rest' ++ [NUL]) c (b₁.length + 1) (fun d hd => ?_) stop
      (by rw [length₁,List.length_cons]; omega)
    · rw [← assoc,List.length_append,List.length_cons] at stops
      exact stops
    · rcases List.mem_cons.mp hd with rfl | inside
      · exact .inr rfl
      · exact .inl (h.gap.2 d inside)
  -- the last of the gap is overwritten, be it the blank that is a terminator already
  obtain ⟨gap,long,written⟩ : ∃ gap : Str, gap.length = blanks.length ∧
      (NUL :: blanks).set blanks.length NUL = NUL :: gap := by
    cases blanks with
    | nil => exact ⟨[],rfl,rfl⟩
    | cons d blanks => exact ⟨(d :: blanks).set blanks.length NUL,by simp,rfl⟩
  have ends : b₁.set (pre.length + word.length + blanks.length) NUL
      = (pre ++ (word ++ NUL :: gap)) ++ (rest ++ [NUL]) := by
    have assoc : b₁ = (pre ++ word) ++ ((NUL :: blanks) ++ (rest ++ [NUL])) := by
      rw [def₁,same]
      simp
    have place : pre.length + word.length + blanks.length = (pre ++ word).length + blanks.length := by
      rw [List.length_append]
    rw [assoc,place,List.set_append_right _ _ (Nat.le_add_right _ _),Nat.add_sub_cancel_left,
      List.set_append_left _ _ (by simp),written]
    simp
  refine ⟨gap,?_⟩
  unfold advance
  simp only [field,stored,skipped,bind,Option.bind]
  have inside : pre.length + word.length + blanks.length < b₁.length := by omega
  have last : pre.length + word.length + (blanks.length + 1) - 1 = pre.length + word.length + blanks.length := by omega
  rw [last,store,if_pos inside,ends]
  simp only [List.length_append,List.length_cons,long]
  exact congrArg some (Prod.ext rfl (by simp only; omega))

theorem advanceRuns {s : Str} (h : Solid s) : advance (pre ++ (s ++ [NUL])) pre.length = none := by
  have runs : skipField (pre ++ (s ++ [NUL])) ((pre ++ (s ++ [NUL])).length + 1) pre.length = none := by
    refine skipFieldRuns fun d hd => ?_
    rcases List.mem_append.mp hd with inside | last
    · exact (h.2 d inside).1
    · rw [List.mem_singleton.mp last]
      rfl
  unfold advance
  rw [runs]
  rfl

end Bytes

end CuteNdk.CronText
