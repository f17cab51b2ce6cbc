import Mathlib.Algebra.Group.Nat.Defs
import Mathlib.Data.List.Basic
import Mathlib.Data.List.TakeWhile

/-! The C library functions on character strings, on the characters before the
terminator. A returned pointer is the text from there on; a null one is none.
Conversions are exact: overflow of int is outside what they describe. -/
namespace CuteNdk.Lib.CString

abbrev Str := List Char

def isspace (c : Char) : Bool := c == ' ' || decide (9 ≤ c.toNat ∧ c.toNat ≤ 13)

def strchr (s : Str) (c : Char) : Option Str :=
  match s.dropWhile (fun d => d != c) with
  | [] => none
  | t => some t

def strrchr : Str → Char → Option Str
  | [], _ => none
  | d :: s, c =>
    match strrchr s c with
    | some t => some t
    | none => if d = c then some (d :: s) else none

def decimal (ds : Str) : Nat := ds.foldl (fun n d => 10 * n + (d.toNat - 48)) 0

/- An optional sign: whether it is a minus, and the text after it. -/
def sign (s : Str) : Bool × Str :=
  if s.head? = some '-' then (true,s.tail)
  else if s.head? = some '+' then (false,s.tail)
  else (false,s)

/- The "%d" conversion: none is a matching failure. -/
def scanInt (s : Str) : Option (Int × Str) :=
  let (negative,t) := sign (s.dropWhile isspace)
  match t.takeWhile Char.isDigit with
  | [] => none
  | ds => some (if negative then -(decimal ds : Int) else decimal ds,t.dropWhile Char.isDigit)

def atoi (s : Str) : Int :=
  match scanInt s with
  | some (n,_) => n
  | none => 0

def strstr : Str → Str → Option Str
  | [], key => if key = [] then some [] else none
  | c :: s, key => if key.isPrefixOf (c :: s) then some (c :: s) else strstr s key

def strspn (s accept : Str) : Nat := (s.takeWhile (fun c => accept.contains c)).length

def strcspn (s reject : Str) : Nat := (s.takeWhile (fun c => !reject.contains c)).length

def llongMax : Int := 9223372036854775807
def llongMin : Int := -9223372036854775808

/- In base 10. A number outside long long is taken to the nearer bound. -/
def strtoll (s : Str) : Int := max llongMin (min llongMax (atoi s))

/- What the calls of strtok_r return one after another. -/
def strtok (s : Str) (delimiter : Char) : List Str := (s.splitOn delimiter).filter (fun t => !t.isEmpty)

/- A piece of text a conversion stops in front of. -/
def NoDigit (s : Str) : Prop := ∀ c ∈ s.head?, c.isDigit = false

def Digits (ds : Str) : Prop := ds ≠ [] ∧ ∀ c ∈ ds, c.isDigit = true
instance (ds) : Decidable (Digits ds) :=
  decidable_of_iff (ds.isEmpty = false ∧ ds.all Char.isDigit = true) (by simp [Digits])

theorem digitNotSpace {c : Char} (h : c.isDigit = true) : isspace c = false ∧ c ≠ '-' ∧ c ≠ '+' := by
  have range : 48 ≤ c.toNat ∧ c.toNat ≤ 57 := by
    simpa [Char.isDigit,UInt32.le_iff_toNat_le] using h
  refine ⟨?_,?_,?_⟩
  · simp only [isspace,Bool.or_eq_false_iff,beq_eq_false_iff_ne,decide_eq_false_iff_not]
    refine ⟨fun same => ?_,by omega⟩
    subst c
    exact absurd range.1 (by decide)
  · rintro rfl
    exact absurd range.1 (by decide)
  · rintro rfl
    exact absurd range.1 (by decide)

theorem takeDigits {ds rest : Str} (digits : ∀ c ∈ ds, c.isDigit = true) (stop : NoDigit rest) :
    (ds ++ rest).takeWhile Char.isDigit = ds ∧ (ds ++ rest).dropWhile Char.isDigit = rest := by
  induction ds with
  | nil =>
    cases rest with
    | nil => exact ⟨rfl,rfl⟩
    | cons c rest =>
      have no : c.isDigit = false := stop c rfl
      simp [no]
  | cons d ds ih =>
    have yes : d.isDigit = true := digits d List.mem_cons_self
    obtain ⟨taken,left⟩ := ih fun c hc => digits c (List.mem_cons_of_mem d hc)
    simp [yes,taken,left]

theorem scanDigits {ds rest : Str} (h : Digits ds) (stop : NoDigit rest) :
    scanInt (ds ++ rest) = some ((decimal ds : Int),rest) := by
  obtain ⟨some_,digits⟩ := h
  obtain ⟨taken,left⟩ := takeDigits digits stop
  cases ds with
  | nil => exact absurd rfl some_
  | cons d ds =>
    obtain ⟨space,minus,plus⟩ := digitNotSpace (digits d List.mem_cons_self)
    have start : (d :: ds ++ rest).dropWhile isspace = d :: ds ++ rest := by simp [space]
    have unsigned : sign (d :: ds ++ rest) = (false,d :: ds ++ rest) := by simp [sign,minus,plus]
    simp only [scanInt,start,unsigned,taken,left]
    simp

theorem atoiDigits {ds rest : Str} (h : Digits ds) (stop : NoDigit rest) :
    atoi (ds ++ rest) = decimal ds := by
  simp only [atoi,scanDigits h stop]

theorem atoiWhole {ds : Str} (h : Digits ds) : atoi ds = decimal ds := by
  have read := @atoiDigits ds [] h fun c no => by cases no
  rw [List.append_nil] at read
  exact read

/- The "%d" and "%u" conversions of a number that is not negative. -/
def digits (n : Nat) : Str := Nat.toDigits 10 n

theorem digitsDigits (n : Nat) : Digits (digits n) :=
  ⟨Nat.toDigits_ne_nil,fun _ mem => Nat.isDigit_of_mem_toDigits (by decide) (by decide) mem⟩

theorem decimalDigits (n : Nat) : decimal (digits n) = n := by
  have same : decimal (digits n) = Nat.ofDigitChars 10 (Nat.toDigits 10 n) 0 := Nat.ofDigitChars_eq_foldl.symm
  rw [same,Nat.ofDigitChars_ten_toDigits]

theorem digitsLength {n k : Nat} (some_ : 0 < k) (small : n < 10 ^ k) : (digits n).length ≤ k :=
  (Nat.length_toDigits_le_iff (by decide) some_).mpr small

theorem notDigit {n : Nat} {c : Char} (other : c.isDigit = false) : c ∉ digits n := by
  intro mem
  rw [(digitsDigits n).2 c mem] at other
  cases other

theorem strtollDigits {ds rest : Str} (h : Digits ds) (stop : NoDigit rest) :
    strtoll (ds ++ rest) = min llongMax (decimal ds) := by
  have least : llongMin ≤ min llongMax (decimal ds : Int) := by
    simp only [llongMin,llongMax]
    omega
  rw [strtoll,atoiDigits h stop,Int.max_eq_right least]

/- A text that starts with a digit is a number and what stops it. -/
theorem digitsFirst {s : Str} {c : Char} (first : s.head? = some c) (digit : c.isDigit = true) :
    Digits (s.takeWhile Char.isDigit) ∧ NoDigit (s.dropWhile Char.isDigit) := by
  refine ⟨⟨?_,List.all_eq_true.1 List.all_takeWhile⟩,fun d hd => ?_⟩
  · cases s with
    | nil => cases first
    | cons d s =>
      have same : d = c := Option.some.inj first
      simp [same,digit]
  · have other := List.head?_dropWhile_not Char.isDigit s
    rw [Option.mem_def.1 hd] at other
    simpa using other

theorem strtollStart {s : Str} {c : Char} (first : s.head? = some c) (digit : c.isDigit = true) :
    strtoll s = min llongMax (decimal (s.takeWhile Char.isDigit)) := by
  obtain ⟨digits,stop⟩ := digitsFirst first digit
  have split : s = s.takeWhile Char.isDigit ++ s.dropWhile Char.isDigit := by simp
  calc strtoll s = strtoll (s.takeWhile Char.isDigit ++ s.dropWhile Char.isDigit) := by rw [← split]
    _ = min llongMax (decimal (s.takeWhile Char.isDigit)) := strtollDigits digits stop

theorem strchrFound {pre post : Str} {c : Char} (fresh : c ∉ pre) :
    strchr (pre ++ c :: post) c = some (c :: post) := by
  have skipped : (pre ++ c :: post).dropWhile (fun d => d != c) = c :: post := by
    rw [List.dropWhile_append_of_pos]
    · simp
    · intro d hd
      simpa using fun same : d = c => fresh (same ▸ hd)
  simp only [strchr,skipped]

theorem strchrNone {s : Str} {c : Char} : strchr s c = none ↔ c ∉ s := by
  induction s with
  | nil => simp [strchr]
  | cons d s ih =>
    by_cases same : d = c
    · simp [strchr,same]
    · have step : strchr (d :: s) c = strchr s c := by simp [strchr,same]
      rw [step,ih]
      simp [Ne.symm same]

/- What follows a text does not matter to a search that ends in it, nor to a span
that stops in it. -/
theorem strstrFound {s key r : Str} (h : strstr s key = some r) : key <+: r ∧ r <:+ s := by
  induction s with
  | nil =>
    by_cases empty : key = []
    · simp only [strstr,empty,if_true] at h
      cases h
      exact ⟨empty ▸ List.nil_prefix,List.suffix_rfl⟩
    · simp only [strstr,empty,if_false] at h
      cases h
  | cons c s ih =>
    by_cases here : key.isPrefixOf (c :: s)
    · simp only [strstr,here,if_true] at h
      cases h
      exact ⟨List.isPrefixOf_iff_prefix.1 here,List.suffix_rfl⟩
    · simp only [strstr,here] at h
      obtain ⟨first,suffix⟩ := ih h
      exact ⟨first,suffix.trans (List.suffix_cons c s)⟩

theorem strstrAppend {s key r a : Str} (h : strstr s key = some r) : strstr (s ++ a) key = some (r ++ a) := by
  induction s with
  | nil =>
    by_cases empty : key = []
    · simp only [strstr,empty,if_true] at h
      cases h
      cases a <;> simp [strstr,empty]
    · simp only [strstr,empty,if_false] at h
      cases h
  | cons c s ih =>
    by_cases here : key.isPrefixOf (c :: s)
    · simp only [strstr,here,if_true] at h
      cases h
      have longer : key.isPrefixOf (c :: (s ++ a)) :=
        List.isPrefixOf_iff_prefix.2 ((List.isPrefixOf_iff_prefix.1 here).trans (List.prefix_append (c :: s) a))
      simp only [List.cons_append,strstr,longer,if_true]
    · simp only [strstr,here] at h
      obtain ⟨first,suffix⟩ := strstrFound h
      have short : key.length ≤ (c :: s).length :=
        Nat.le_succ_of_le (Nat.le_trans first.length_le suffix.length_le)
      have notLonger : ¬ key.isPrefixOf (c :: (s ++ a)) := by
        intro longer
        have within : key <+: (c :: s) ++ a := List.isPrefixOf_iff_prefix.1 longer
        exact here (List.isPrefixOf_iff_prefix.2 (List.prefix_of_prefix_length_le within (List.prefix_append _ a) short))
      simp only [List.cons_append,strstr,notLonger]
      exact ih h

theorem strchrAppend {s r a : Str} {c : Char} (h : strchr s c = some r) : strchr (s ++ a) c = some (r ++ a) := by
  induction s with
  | nil => cases h
  | cons d s ih =>
    by_cases same : d = c
    · simp only [strchr,same,List.dropWhile_cons,bne_self_eq_false,Bool.false_eq_true,if_false] at h
      cases h
      simp [strchr,same]
    · have step : ∀ t, strchr (d :: t) c = strchr t c := fun t => by simp [strchr,same]
      rw [step] at h
      rw [List.cons_append,step]
      exact ih h

theorem strchrSplit {s r : Str} {c : Char} (h : strchr s c = some r) : ∃ pre post, s = pre ++ r ∧ r = c :: post := by
  induction s with
  | nil => cases h
  | cons d s ih =>
    by_cases same : d = c
    · simp only [strchr,same,List.dropWhile_cons,bne_self_eq_false,Bool.false_eq_true,if_false] at h
      cases h
      exact ⟨[],s,by rw [same]; rfl,rfl⟩
    · have step : strchr (d :: s) c = strchr s c := by simp [strchr,same]
      obtain ⟨pre,post,split,first⟩ := ih (step ▸ h)
      exact ⟨d :: pre,post,by rw [split]; rfl,first⟩

theorem spanStops {s a : Str} {p : Char → Bool} (stop : ∃ c ∈ s, p c = false) :
    (s ++ a).takeWhile p = s.takeWhile p ∧ (s ++ a).dropWhile p = s.dropWhile p ++ a := by
  induction s with
  | nil =>
    obtain ⟨c,mem,-⟩ := stop
    cases mem
  | cons d s ih =>
    cases here : p d with
    | false => simp [here]
    | true =>
      obtain ⟨c,mem,no⟩ := stop
      have later : ∃ c ∈ s, p c = false := by
        refine ⟨c,(List.mem_cons.1 mem).resolve_left fun same => ?_,no⟩
        rw [same,here] at no
        cases no
      obtain ⟨taken,left⟩ := ih later
      simp [here,taken,left]

/- A character that no span takes stops it wherever it stands. -/
theorem spanFirst {p : Char → Bool} {c : Char} (stop : p c = false) (s post : Str) :
    (s ++ c :: post).takeWhile p = s.takeWhile p ∧ (s ++ c :: post).dropWhile p = s.dropWhile p ++ c :: post := by
  induction s with
  | nil => exact ⟨List.takeWhile_cons_of_neg (Bool.eq_false_iff.mp stop),List.dropWhile_cons_of_neg (Bool.eq_false_iff.mp stop)⟩
  | cons d s ih =>
    rw [List.cons_append]
    cases taken : p d with
    | false => simp only [List.takeWhile_cons,List.dropWhile_cons,taken,Bool.false_eq_true,if_false,List.cons_append,and_self]
    | true => simp only [List.takeWhile_cons,List.dropWhile_cons,taken,if_true,ih,and_self]

theorem takeFresh {pre post : Str} {c : Char} (fresh : c ∉ pre) : (pre ++ c :: post).takeWhile (fun d => d != c) = pre := by
  rw [(@spanFirst (fun d => d != c) c (bne_self_eq_false c) pre post).1]
  exact List.takeWhile_eq_self_iff.mpr fun d mem => bne_iff_ne.mpr fun same => fresh (same ▸ mem)

theorem dropSpan (s : Str) (p : Char → Bool) : s.drop (s.takeWhile p).length = s.dropWhile p := by
  have split := List.takeWhile_append_dropWhile (p := p) (l := s)
  calc s.drop (s.takeWhile p).length
      = (s.takeWhile p ++ s.dropWhile p).drop (s.takeWhile p).length := by rw [split]
    _ = s.dropWhile p := List.drop_left

/- A character of the key that is nowhere in the text. -/
theorem strstrAbsent {s key : Str} {c : Char} (mem : c ∈ key) (absent : c ∉ s) : strstr s key = none := by
  cases hit : strstr s key with
  | none => rfl
  | some r =>
    obtain ⟨first,behind⟩ := strstrFound hit
    exact absurd (behind.subset (first.subset mem)) absent

/- The first hit is no later than any other. -/
theorem strstrHits (pre key post : Str) : ∃ r, strstr (pre ++ key ++ post) key = some r ∧ key ++ post <:+ r := by
  induction pre with
  | nil =>
    refine ⟨key ++ post,?_,List.suffix_rfl⟩
    rw [List.nil_append]
    cases whole : key ++ post with
    | nil =>
      have empty : key = [] := (List.append_eq_nil_iff.mp whole).1
      rw [empty]
      rfl
    | cons c s =>
      have here : key.isPrefixOf (c :: s) = true := whole ▸ List.isPrefixOf_iff_prefix.mpr (List.prefix_append key post)
      unfold strstr
      rw [if_pos here]
  | cons c pre ih =>
    obtain ⟨r,found,later⟩ := ih
    rw [List.cons_append,List.cons_append]
    unfold strstr
    split
    · refine ⟨_,rfl,?_⟩
      rw [List.append_assoc]
      exact (List.suffix_append pre (key ++ post)).trans (List.suffix_cons c _)
    · exact ⟨r,found,later⟩

theorem prefixInside {s post key : Str} {c : Char} (other : c ∉ key) : key.isPrefixOf (s ++ c :: post) = key.isPrefixOf s := by
  refine Bool.eq_iff_iff.mpr ⟨fun here => ?_,fun here => ?_⟩
  · have first : key <+: s ++ c :: post := List.isPrefixOf_iff_prefix.mp here
    cases Nat.lt_or_ge s.length key.length with
    | inl long =>
      have reaches : s ++ [c] <+: key := by
        refine List.prefix_of_prefix_length_le ?_ first ?_
        · exact ⟨post,by rw [List.append_assoc,List.singleton_append]⟩
        · rw [List.length_append]
          exact long
      exact absurd (reaches.subset (List.mem_append_right s List.mem_cons_self)) other
    | inr short =>
      exact List.isPrefixOf_iff_prefix.mpr (List.prefix_of_prefix_length_le first (List.prefix_append s _) short)
  · exact List.isPrefixOf_iff_prefix.mpr ((List.isPrefixOf_iff_prefix.mp here).trans (List.prefix_append s _))

theorem prefixSkip {post key : Str} {c : Char} (some_ : key ≠ []) (other : c ∉ key) : key.isPrefixOf (c :: post) = false := by
  refine (prefixInside (s := []) other).trans ?_
  cases key with
  | nil => exact absurd rfl some_
  | cons => rfl

/- A character that is not in the key divides the search. -/
theorem strstrSkip {a b key : Str} {c : Char} (some_ : key ≠ []) (other : c ∉ key) (absent : strstr a key = none) :
    strstr (a ++ c :: b) key = strstr b key := by
  induction a with
  | nil =>
    rw [List.nil_append]
    conv => lhs; unfold strstr
    rw [prefixSkip some_ other]
    rfl
  | cons d a ih =>
    unfold strstr at absent
    split at absent
    · cases absent
    · rename_i no
      have no' : key.isPrefixOf (d :: a ++ c :: b) = false := (prefixInside other).trans (Bool.eq_false_iff.mpr no)
      rw [List.cons_append] at no' ⊢
      conv => lhs; unfold strstr
      rw [no']
      exact ih absent

theorem atoiDecimal (s : Str) :
    atoi s = if (sign (s.dropWhile isspace)).1 then
        -(decimal ((sign (s.dropWhile isspace)).2.takeWhile Char.isDigit) : Int)
      else decimal ((sign (s.dropWhile isspace)).2.takeWhile Char.isDigit) := by
  simp only [atoi,scanInt]
  cases (sign (s.dropWhile isspace)).2.takeWhile Char.isDigit with
  | nil => simp [decimal]
  | cons d ds => rfl

/- What a number cannot go on with ends the text it is read from. -/
theorem atoiStop {s post : Str} {c : Char} (digit : c.isDigit = false) (space : isspace c = false)
    (minus : c ≠ '-') (plus : c ≠ '+') : atoi (s ++ c :: post) = atoi s := by
  have signed (t : Str) : sign (t ++ c :: post) = ((sign t).1,(sign t).2 ++ c :: post) := by
    unfold sign
    cases t with
    | nil => simp [minus,plus]
    | cons d t =>
      rw [List.cons_append,List.head?_cons,List.head?_cons]
      split
      · rfl
      · split <;> rfl
  rw [atoiDecimal,atoiDecimal,(spanFirst space s post).2,signed,(spanFirst digit _ post).1]

/- A number that a character other than a digit follows. -/
theorem atoiAppend {s a : Str} {c d : Char} (first : s.head? = some c) (space : isspace c = false)
    (stop : d ∈ s.tail) (digit : d.isDigit = false) : atoi (s ++ a) = atoi s := by
  cases s with
  | nil => cases first
  | cons e s =>
    cases Option.some.inj first
    have start : ∀ t, (c :: t).dropWhile isspace = c :: t := fun t => by simp [space]
    have inTail : ∃ e ∈ s, e.isDigit = false := ⟨d,stop,digit⟩
    have inAll : ∃ e ∈ c :: s, e.isDigit = false := ⟨d,List.mem_cons_of_mem c stop,digit⟩
    have spanTail := (spanStops (a := a) inTail).1
    have spanAll := (spanStops (a := a) inAll).1
    rw [List.cons_append] at spanAll
    rw [atoiDecimal,atoiDecimal,List.cons_append,start,start]
    unfold sign
    by_cases minus : c = '-'
    · simp only [List.head?_cons,minus,if_true,List.tail_cons,spanTail]
    · by_cases plus : c = '+'
      · subst c
        simp only [List.head?_cons,Option.some.injEq,minus,if_false,if_true,List.tail_cons,spanTail]
      · simp only [List.head?_cons,Option.some.injEq,minus,plus,if_false,spanAll]

theorem strtollAppend {s a : Str} {c d : Char} (first : s.head? = some c) (space : isspace c = false)
    (stop : d ∈ s.tail) (digit : d.isDigit = false) : strtoll (s ++ a) = strtoll s := by
  rw [strtoll,strtoll,atoiAppend first space stop digit]

theorem strrchrNone {s : Str} {c : Char} (fresh : c ∉ s) : strrchr s c = none := by
  induction s with
  | nil => rfl
  | cons d s ih =>
    have other : d ≠ c := fun same => fresh (same ▸ List.mem_cons_self)
    simp only [strrchr,ih fun mem => fresh (List.mem_cons_of_mem d mem),if_neg other]

theorem strrchrFound {pre post : Str} {c : Char} (fresh : c ∉ post) :
    strrchr (pre ++ c :: post) c = some (c :: post) := by
  induction pre with
  | nil => simp [strrchr,strrchrNone fresh]
  | cons d pre ih => simp only [List.cons_append,strrchr,ih]

/- A text around the last of a character in it. -/
theorem lastSplit {s : Str} {c : Char} (mem : c ∈ s) : ∃ pre post, s = pre ++ c :: post ∧ c ∉ post := by
  induction s with
  | nil => cases mem
  | cons d s ih =>
    cases Decidable.em (c ∈ s) with
    | inl later =>
      obtain ⟨pre,post,same,fresh⟩ := ih later
      exact ⟨d :: pre,post,congrArg (List.cons d) same,fresh⟩
    | inr fresh =>
      rcases List.mem_cons.mp mem with rfl | later
      · exact ⟨[],s,rfl,fresh⟩
      · exact absurd later fresh

theorem strtokJoin {ts : List Str} {c : Char} (some_ : ts ≠ [])
    (words : ∀ t ∈ ts, t ≠ [] ∧ c ∉ t) : strtok ([c].intercalate ts) c = ts := by
  rw [strtok,List.splitOn_intercalate c (fun t ht => (words t ht).2) some_]
  rw [List.filter_eq_self]
  intro t ht
  simpa using (words t ht).1

end CuteNdk.Lib.CString
