import CuteNdk.HttpParser
import Mathlib.Data.List.GetD
import Mathlib.Data.List.TakeWhile

/-! get_value against the fields of a header. It looks for the key anywhere and takes the next
colon for the end of the name. -/
namespace CuteNdk.HttpParser
open Lib.CString

def InLine (c : Char) : Prop := c ≠ '\r' ∧ c ≠ '\n'

/- strcspn goes on over it. -/
def inLine (c : Char) : Bool := !List.contains ['\r','\n'] c

structure Field where
  name : Str
  value : Str
  nameInLine : ∀ c ∈ name, InLine c
  noColon : ':' ∉ name
  valueInLine : ∀ c ∈ value, InLine c
  visible : ∃ c ∈ value, isspace c = false

def Field.line (f : Field) : Str := f.name ++ ':' :: ' ' :: f.value

def lineEnd : Str := ['\r','\n']

/- The lines with a line end between two of them, and what is after the last. -/
def block : List Field → Str → Str
  | [], after => after
  | f :: fs, after => f.line ++ if fs.isEmpty then after else lineEnd ++ block fs after

/- What follows a line that these follow. -/
def follow (fs : List Field) (after : Str) : Str := if fs.isEmpty then after else lineEnd ++ block fs after

def blank (c : Char) : Bool := [' ','\t'].contains c

/- The text without the blanks before it, up to its last letter. -/
def visibleLength (value : Str) : Nat := ((value.dropWhile blank).reverse.dropWhile isspace).length

/- The value of the first field of that name: where it starts and how long it is. -/
def valueIn (after key : Str) : List Field → Option (Str × Nat)
  | [] => none
  | f :: fs =>
    if f.name = key then some ((f.value ++ follow fs after).dropWhile blank,visibleLength f.value) else valueIn after key fs

/- The text in front of it, and behind it. -/
def before (key : Str) : List Field → Str
  | [] => []
  | f :: fs => if f.name = key then [] else f.line ++ lineEnd ++ before key fs

def behind (after key : Str) : List Field → Str
  | [] => []
  | f :: fs => if f.name = key then follow fs after else behind after key fs

/- The first hit of the key leads to the field of that name: no colon is between, and the line
has an end. Without one, the first hit leads to no colon or to one that ends its line. -/
def Reaches (fields : List Field) (after key : Str) : Prop :=
  if ∃ f ∈ fields, f.name = key then
    (∀ rest ∈ strstr (before key fields ++ key) key, ':' ∉ rest.drop key.length) ∧ behind after key fields ≠ []
  else ∀ rest ∈ strstr (block fields after) key, ∀ colon ∈ strchr (rest.drop key.length) ':',
    (colon.tail.takeWhile inLine).all blank = true

instance (fields after key) : Decidable (Reaches fields after key) := by
  unfold Reaches; infer_instance

section Values
variable {value post : Str}

theorem strspnDrop (s accept : Str) : s.drop (strspn s accept) = s.dropWhile fun c => accept.contains c := dropSpan s _

theorem breakSpace {c : Char} (ends : ¬ InLine c) : isspace c = true := by
  unfold InLine at ends
  cases Decidable.em (c = '\r') with
  | inl same =>
    rw [same]
    rfl
  | inr other =>
    have same : c = '\n' := Decidable.byContradiction fun no => ends ⟨other,no⟩
    rw [same]
    rfl

/- A text in a line ends at its end. -/
theorem valueSpan (inLine : ∀ c ∈ value, InLine c) (ends : ∀ c ∈ post.head?, ¬ InLine c) :
    strcspn (value ++ post) ['\r','\n'] = value.length := by
  have stays {c : Char} (line : InLine c) : (!List.contains ['\r','\n'] c) = true := by
    simp [line.1,line.2]
  have stops : post.takeWhile (fun c => !List.contains ['\r','\n'] c) = [] := by
    cases post with
    | nil => rfl
    | cons c post =>
      have break_ := ends c rfl
      rw [List.takeWhile_cons_of_neg]
      intro line
      refine break_ ⟨?_,?_⟩ <;> (rintro rfl; cases line)
  unfold strcspn
  rw [List.takeWhile_append_of_pos fun c mem => stays (inLine c mem),stops,List.append_nil]

/- Over spaces the pointer goes back to the letter before them. -/
theorem backSkips {pre s : Str} {d : Char} (letter : isspace d = false) {k : Nat}
    (spaces : ∀ i, i < k → isspace (charAt s i) = true) : backOverSpace (pre ++ d :: s) (pre.length + k) = pre.length := by
  induction k with
  | zero =>
    cases last : pre.length with
    | zero => rfl
    | succ n =>
      have here : charAt (pre ++ d :: s) (n + 1) = d := by
        unfold charAt
        rw [List.getD_append_right _ _ _ _ (Nat.le_of_eq last),last,Nat.sub_self]
        rfl
      unfold backOverSpace
      rw [here,letter]
      rfl
  | succ k ih =>
    have here : charAt (pre ++ d :: s) (pre.length + k + 1) = charAt s k := by
      unfold charAt
      rw [List.getD_append_right _ _ _ _ (by omega),show pre.length + k + 1 - pre.length = k + 1 by omega]
      rfl
    rw [← Nat.add_assoc]
    unfold backOverSpace
    rw [here,spaces k (Nat.lt_succ_self k),if_pos rfl]
    exact ih fun i low => spaces i (Nat.lt_succ_of_lt low)

/- A text with a letter is what is before its last one, that one and spaces. -/
theorem lastLetter (visible : ∃ c ∈ value, isspace c = false) : ∃ pre d spaces, value = pre ++ d :: spaces ∧
    isspace d = false ∧ (∀ c ∈ spaces, isspace c = true) ∧ (value.reverse.dropWhile isspace).length = pre.length + 1 := by
  obtain ⟨c,mem,letter⟩ := visible
  cases found : value.reverse.dropWhile isspace with
  | nil =>
    rw [List.dropWhile_eq_nil_iff.mp found c (List.mem_reverse.mpr mem)] at letter
    cases letter
  | cons d rest =>
    have parts := List.takeWhile_append_dropWhile (p := isspace) (l := value.reverse)
    have stop := List.head?_dropWhile_not isspace value.reverse
    rw [found] at parts stop
    have whole := congrArg List.reverse parts
    rw [List.reverse_reverse,List.reverse_append,List.reverse_cons,List.append_assoc,List.singleton_append] at whole
    refine ⟨rest.reverse,d,(value.reverse.takeWhile isspace).reverse,whole.symm,?_,fun c mem => ?_,?_⟩
    · simpa using stop
    · exact List.mem_takeWhile_imp (List.mem_reverse.mp mem)
    · rw [List.length_cons,List.length_reverse]

/- v_end goes back over the end of the line and the spaces before it. -/
theorem backOver (visible : ∃ c ∈ value, isspace c = false) (some_ : post ≠ []) (ends : ∀ c ∈ post.head?, ¬ InLine c) :
    backOverSpace (value ++ post) value.length + 1 = (value.reverse.dropWhile isspace).length := by
  obtain ⟨pre,d,spaces,rfl,letter,all,length⟩ := lastLetter visible
  cases post with
  | nil => exact absurd rfl some_
  | cons c post =>
    rw [length,List.append_assoc,List.cons_append,List.length_append,List.length_cons]
    refine congrArg Nat.succ (backSkips letter fun i low => ?_)
    unfold charAt
    cases Nat.lt_or_eq_of_le (Nat.le_of_lt_succ low) with
    | inl inside =>
      rw [List.getD_append _ _ _ _ inside,List.getD_eq_getElem _ _ inside]
      exact all _ (List.getElem_mem inside)
    | inr last =>
      rw [last,List.getD_append_right _ _ _ _ (Nat.le_refl _),Nat.sub_self]
      exact breakSpace (ends c rfl)

theorem blankSpace {c : Char} (is_blank : blank c = true) : isspace c = true := by
  have either : c = ' ' ∨ c = '\t' := by simpa [blank] using is_blank
  rcases either with rfl | rfl <;> rfl

/- The blanks before a value end in it. -/
theorem skipBlanks (post : Str) (visible : ∃ c ∈ value, isspace c = false) :
    (value ++ post).dropWhile blank = value.dropWhile blank ++ post ∧
    ∃ c ∈ value.dropWhile blank, isspace c = false := by
  obtain ⟨c,mem,letter⟩ := visible
  have stops {d : Char} (shown : isspace d = false) : blank d = false :=
    Bool.eq_false_iff.mpr fun is_blank => by rw [blankSpace is_blank] at shown; cases shown
  refine ⟨(spanStops ⟨c,mem,stops letter⟩).2,c,?_,letter⟩
  have parts := List.takeWhile_append_dropWhile (p := blank) (l := value)
  rw [← parts] at mem
  refine (List.mem_append.mp mem).resolve_left fun skipped => ?_
  have is_blank := List.mem_takeWhile_imp skipped
  rw [stops letter] at is_blank
  cases is_blank

/- At the end of the text there is nothing to go back over. -/
theorem backAtEnd (some_ : value ≠ []) : backOverSpace (value ++ []) value.length = value.length := by
  cases value with
  | nil => exact absurd rfl some_
  | cons c value =>
    have behind : charAt (c :: value ++ []) (value.length + 1) = '\x00' := by
      unfold charAt
      rw [List.append_nil]
      exact List.getD_eq_default _ _ (Nat.le_refl _)
    rw [List.length_cons]
    unfold backOverSpace
    rw [behind]
    rfl

end Values

section Lookup
variable {fields : List Field} {after key header rest post : Str}

theorem followEnds (ends : ∀ c ∈ after, ¬ InLine c) (fs : List Field) : ∀ c ∈ (follow fs after).head?, ¬ InLine c := by
  intro c first
  cases fs with
  | nil => exact ends c (List.mem_of_mem_head? first)
  | cons g gs =>
    cases Option.some.inj first
    exact fun line => line.1 rfl

/- The header around the first field of the name. -/
theorem namedSplit (ends : ∀ c ∈ after, ¬ InLine c) (named : ∃ f ∈ fields, f.name = key) :
    ∃ f : Field, block fields after = before key fields ++ key ++ ':' :: ' ' :: (f.value ++ behind after key fields) ∧
      valueIn after key fields = some ((f.value ++ behind after key fields).dropWhile blank,visibleLength f.value) ∧
      ∀ c ∈ (behind after key fields).head?, ¬ InLine c := by
  induction fields with
  | nil =>
    obtain ⟨f,no,_⟩ := named
    cases no
  | cons f fs ih =>
    cases Decidable.em (f.name = key) with
    | inl same =>
      refine ⟨f,?_,?_,?_⟩
      · unfold before behind
        rw [if_pos same,if_pos same,← same]
        show f.name ++ ':' :: ' ' :: f.value ++ follow fs after = _
        simp only [List.nil_append,List.append_assoc,List.cons_append]
      · unfold valueIn behind
        rw [if_pos same,if_pos same]
      · unfold behind
        rw [if_pos same]
        exact followEnds ends fs
    | inr other =>
      have later : ∃ g ∈ fs, g.name = key := by
        obtain ⟨g,mem,same⟩ := named
        cases mem with
        | head => exact absurd same other
        | tail _ mem => exact ⟨g,mem,same⟩
      obtain ⟨g,whole,value,stops⟩ := ih later
      have more : fs.isEmpty = false := by
        obtain ⟨g,mem,_⟩ := later
        cases fs with
        | nil => cases mem
        | cons => rfl
      refine ⟨g,?_,?_,?_⟩
      · unfold before behind block
        rw [if_neg other,if_neg other,more,whole]
        simp only [Bool.false_eq_true,if_false,List.append_assoc]
      · unfold valueIn behind
        rw [if_neg other,if_neg other]
        exact value
      · unfold behind
        rw [if_neg other]
        exact stops

/- At the colon of a field get_value answers its value. -/
theorem fieldValue (f : Field) (hit : strstr header key = some rest)
    (colon : strchr (rest.drop key.length) ':' = some (':' :: ' ' :: (f.value ++ post))) (ends : ∀ c ∈ post.head?, ¬ InLine c) :
    getValue header key = some ((f.value ++ post).dropWhile blank,
      if post = [] then (f.value.dropWhile blank).length + 1 else visibleLength f.value) := by
  obtain ⟨skipped,shown⟩ := skipBlanks post f.visible
  have inLine : ∀ c ∈ f.value.dropWhile blank, InLine c := fun c mem =>
    f.valueInLine c ((List.dropWhile_sublist blank).mem mem)
  have some_ : f.value.dropWhile blank ≠ [] := by
    obtain ⟨c,mem,_⟩ := shown
    exact List.ne_nil_of_mem mem
  have start : (' ' :: (f.value ++ post)).drop (strspn (' ' :: (f.value ++ post)) [' ','\t']) =
      f.value.dropWhile blank ++ post := by
    rw [strspnDrop,← skipped]
    exact List.dropWhile_cons_of_pos rfl
  have space : charAt (':' :: ' ' :: (f.value ++ post)) 1 ≠ '\r' := by
    show ' ' ≠ '\r'
    decide
  unfold getValue
  simp only [hit,colon]
  rw [if_neg space,List.tail_cons,start,valueSpan inLine ends,if_neg (mt List.eq_nil_of_length_eq_zero some_),skipped]
  refine congrArg some (Prod.ext rfl ?_)
  show backOverSpace _ _ + 1 = _
  split
  · rename_i none'
    rw [none',backAtEnd some_]
  · rename_i more
    exact backOver shown more ends

/- Wherever it comes to, the answer starts behind that colon and the blanks. -/
theorem valueStart {colon : Str} {v : Str × Nat} (hit : strstr header key = some rest)
    (found : strchr (rest.drop key.length) ':' = some colon) (answer : getValue header key = some v) :
    v.1 = colon.tail.dropWhile blank := by
  unfold getValue at answer
  simp only [hit,found] at answer
  split at answer
  · cases answer
  · split at answer
    · cases answer
    · cases Option.some.inj answer
      exact strspnDrop _ _

/- The first hit of the key comes to the field of that name where no colon is between. -/
theorem namedFound (ends : ∀ c ∈ after, ¬ InLine c) (named : ∃ f ∈ fields, f.name = key) :
    getValue (block fields after) key = valueIn after key fields ↔
      (∀ rest ∈ strstr (before key fields ++ key) key, ':' ∉ rest.drop key.length) ∧ behind after key fields ≠ [] := by
  obtain ⟨f,whole,value,stops⟩ := namedSplit ends named
  obtain ⟨rest,hit,_⟩ := strstrHits (before key fields) key []
  rw [List.append_nil] at hit
  have hit' := strstrAppend (a := ':' :: ' ' :: (f.value ++ behind after key fields)) hit
  obtain ⟨⟨between,first⟩,_⟩ := strstrFound hit
  have dropped : rest.drop key.length = between := by rw [← first,List.drop_left]
  have rests : (rest ++ ':' :: ' ' :: (f.value ++ behind after key fields)).drop key.length =
      between ++ ':' :: ' ' :: (f.value ++ behind after key fields) := by
    rw [← first,List.append_assoc,List.drop_left]
  rw [← whole] at hit'
  rw [value]
  cases Decidable.em (':' ∈ between) with
  | inl colon =>
    refine iff_of_false (fun answer => ?_) fun both => both.1 rest hit (dropped ▸ colon)
    obtain ⟨pre,tail,split,fresh⟩ := List.eq_append_cons_of_mem colon
    have found : strchr ((rest ++ ':' :: ' ' :: (f.value ++ behind after key fields)).drop key.length) ':' =
        some (':' :: (tail ++ [':'] ++ ' ' :: (f.value ++ behind after key fields))) := by
      rw [rests,split,List.append_assoc,List.cons_append,List.append_assoc]
      exact strchrFound fresh
    have start := valueStart hit' found answer
    rw [List.tail_cons,(spanStops ⟨':',List.mem_append_right tail List.mem_cons_self,rfl⟩).2] at start
    -- the answer would start in front of the field's own colon
    have lengths := congrArg List.length start
    have short := (List.dropWhile_suffix (l := f.value ++ behind after key fields) blank).length_le
    rw [List.length_append,List.length_cons] at lengths
    simp only at lengths
    omega
  | inr fresh =>
    have all : ∀ r ∈ strstr (before key fields ++ key) key, ':' ∉ r.drop key.length := fun r hr => by
      cases Option.some.inj (hit.symm.trans hr)
      rw [dropped]
      exact fresh
    have colon : strchr ((rest ++ ':' :: ' ' :: (f.value ++ behind after key fields)).drop key.length) ':' =
        some (':' :: ' ' :: (f.value ++ behind after key fields)) := by
      rw [rests]
      exact strchrFound fresh
    rw [fieldValue f hit' colon stops]
    have short : visibleLength f.value ≤ (f.value.dropWhile blank).length := by
      refine Nat.le_trans (List.dropWhile_suffix isspace).length_le ?_
      rw [List.length_reverse]
    split
    · rename_i none'
      refine iff_of_false (fun same => ?_) fun both => both.2 none'
      have lengths := (Prod.mk.inj (Option.some.inj same)).2
      omega
    · rename_i more
      exact iff_of_true rfl ⟨all,more⟩

theorem restOfLine (t : Str) : strcspn (t.dropWhile blank) ['\r','\n'] = 0 ↔ (t.takeWhile inLine).all blank = true := by
  have span : strcspn (t.dropWhile blank) ['\r','\n'] = ((t.dropWhile blank).takeWhile inLine).length := rfl
  rw [span,List.length_eq_zero_iff]
  induction t with
  | nil => exact iff_of_true rfl rfl
  | cons c t ih =>
    cases is_blank : blank c with
    | true =>
      have line : inLine c = true := by
        have either : c = ' ' ∨ c = '\t' := by simpa [blank] using is_blank
        rcases either with rfl | rfl <;> rfl
      rw [List.dropWhile_cons_of_pos is_blank,List.takeWhile_cons_of_pos line,List.all_cons,is_blank,Bool.true_and]
      exact ih rfl
    | false =>
      rw [List.dropWhile_cons_of_neg (by rw [is_blank]; exact Bool.false_ne_true)]
      cases line : inLine c with
      | true =>
        rw [List.takeWhile_cons_of_pos line,List.all_cons,is_blank]
        exact iff_of_false (List.cons_ne_nil _ _) Bool.false_ne_true
      | false =>
        rw [List.takeWhile_cons_of_neg (by rw [line]; exact Bool.false_ne_true)]
        exact iff_of_true rfl rfl

/- Without a field of the name there is nothing to come to. -/
theorem unnamedFound (header key : Str) : getValue header key = none ↔ ∀ rest ∈ strstr header key,
    ∀ colon ∈ strchr (rest.drop key.length) ':', (colon.tail.takeWhile inLine).all blank = true := by
  unfold getValue
  cases hit : strstr header key with
  | none => exact iff_of_true rfl fun rest no => by cases no
  | some rest =>
    simp only [Option.mem_some_iff,forall_eq']
    cases found : strchr (rest.drop key.length) ':' with
    | none => exact iff_of_true rfl fun colon no => by cases no
    | some colon =>
      simp only [Option.mem_some_iff,forall_eq']
      split
      · rename_i ends
        refine iff_of_true rfl ?_
        cases colon with
        | nil => rfl
        | cons c t =>
          cases t with
          | nil => rfl
          | cons d t =>
            have break_ : d = '\r' := ends
            rw [break_]
            rfl
      · rw [← restOfLine,strspnDrop]
        show (if strcspn (colon.tail.dropWhile blank) ['\r','\n'] = 0 then none else _) = none ↔ _
        split
        · rename_i zero
          exact iff_of_true rfl zero
        · rename_i more
          exact iff_of_false (fun no => by cases no) more

theorem valueInNone (unnamed : ¬ ∃ f ∈ fields, f.name = key) : valueIn after key fields = none := by
  induction fields with
  | nil => rfl
  | cons f fs ih =>
    unfold valueIn
    rw [if_neg fun same => unnamed ⟨f,List.mem_cons_self,same⟩]
    exact ih fun ⟨g,mem,same⟩ => unnamed ⟨g,List.mem_cons_of_mem f mem,same⟩

end Lookup

/- after holds the end of the last line, if it has one. -/
theorem lookupReaches (fields : List Field) (after key : Str) (ends : ∀ c ∈ after, ¬ InLine c) :
    getValue (block fields after) key = valueIn after key fields ↔ Reaches fields after key := by
  unfold Reaches
  split
  · rename_i named
    exact namedFound ends named
  · rename_i unnamed
    rw [valueInNone unnamed]
    exact unnamedFound (block fields after) key

/- Whether a name and a value can stand on a line. -/
def fits (name value : Str) : Bool :=
  name.all (fun c => inLine c && c != ':') && value.all inLine && value.any fun c => !isspace c

theorem inLineIff {c : Char} (line : inLine c = true) : InLine c := by
  constructor <;> (rintro rfl; cases line)

def fieldOf (name value : Str) (fine : fits name value = true) : Field where
  name := name
  value := value
  nameInLine c mem := by
    simp only [fits,Bool.and_eq_true,List.all_eq_true] at fine
    exact inLineIff (fine.1.1 c mem).1
  noColon mem := by
    simp only [fits,Bool.and_eq_true,List.all_eq_true] at fine
    exact absurd (fine.1.1 _ mem).2 (by decide)
  valueInLine c mem := by
    simp only [fits,Bool.and_eq_true,List.all_eq_true] at fine
    exact inLineIff (fine.1.2 c mem)
  visible := by
    simp only [fits,Bool.and_eq_true,List.any_eq_true] at fine
    obtain ⟨c,mem,letter⟩ := fine.2
    exact ⟨c,mem,by simpa using letter⟩

def hostField : Field := fieldOf "Host".toList "media".toList (by decide)

def rangeField : Field := fieldOf "Range".toList "bytes=2-5 ".toList (by decide)

def acceptField : Field := fieldOf "Accept-Ranges".toList "none".toList (by decide)

theorem rangeReached : getValue (block [hostField,rangeField] lineEnd) "Range".toList =
    valueIn lineEnd "Range".toList [hostField,rangeField] :=
  (lookupReaches [hostField,rangeField] lineEnd "Range".toList (by
    intro c mem line
    rcases List.mem_cons.mp mem with rfl | mem
    · exact line.1 rfl
    · exact line.2 (List.mem_singleton.mp mem))).mpr (by decide)

example : valueIn lineEnd "Range".toList [hostField,rangeField] = some ("bytes=2-5 \r\n".toList,9) := by decide

/- The key inside another name. -/
theorem acceptRangesFirst : ¬ ∀ (fields : List Field) (key : Str),
    getValue (block fields []) key = valueIn [] key fields := by
  intro claim
  have other := claim [acceptField,rangeField,hostField] "Range".toList
  have ran : getValue (block [acceptField,rangeField,hostField] []) "Range".toList =
      some ("none\r\nRange: bytes=2-5 \r\nHost: media".toList,4) := by decide
  have value : valueIn [] "Range".toList [acceptField,rangeField,hostField] =
      some ("bytes=2-5 \r\nHost: media".toList,9) := by decide
  rw [ran,value] at other
  exact absurd (Prod.mk.inj (Option.some.inj other)).2 (by decide)

end CuteNdk.HttpParser
