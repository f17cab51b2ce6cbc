import CuteNdk.CronText

/-! ndk.cpp: strstrip and strstrip_all. The first takes its length from two pointers, one of which
stays null for a text of blanks; the second counts with an i that it never moves. -/
namespace CuteNdk.Ndk
open Lib.CString

/- An int and a size_t. -/
def int (n : Int) : Int := n.bmod 4294967296
def sizeT (n : Int) : Nat := (n % 18446744073709551616).toNat

/- What goes to out_str: characters of the text, and terminators behind them. -/
structure Written where
  text : Str
  padding : Nat
  deriving DecidableEq, Repr

def Written.size (w : Written) : Nat := w.text.length + w.padding

def strncpy (src : Str) (n : Nat) : Written := ⟨src.take n,n - src.length⟩

/- for (; *in_str; ++in_str) if (isspace((int)*in_str) == 0) last = in_str; pos is the distance of
in_str to begin. -/
def lastFrom (pos : Nat) (last : Option Nat) : Str → Option Nat
  | [] => last
  | c :: rest => lastFrom (pos + 1) (if isspace c then last else some pos) rest

/- null is last - begin with a last of 0. The language gives it no value; in a flat memory it is
the address of begin, negated. -/
def strstrip (null : Int) (inStr : Str) (len : Int) : Option Written :=
  if len ≤ 0 then none
  else
    let begin := inStr.dropWhile isspace
    let distance : Int := match lastFrom 0 none begin with
      | some last => last
      | none => null
    let l := int (distance + 1)
    some (strncpy begin (sizeT (if l < len then l else len)))

/- for (int i = 0; *in_str && i < len; ++in_str). -/
def stripAllFrom (i len : Int) : Str → Str
  | [] => []
  | c :: rest => if i < len then (if isspace c then [] else [c]) ++ stripAllFrom i len rest else []

def strstripAll (inStr : Str) (len : Int) : Written := ⟨stripAllFrom 0 len inStr,0⟩

def trim (inStr : Str) : Str := (inStr.dropWhile isspace).rdropWhile isspace

def unspaced (inStr : Str) : Str := inStr.filter fun c => !isspace c

/- No more than len bytes are written, and they are the text, cut. -/
structure Respects (len : Int) (text : Str) (w : Written) : Prop where
  size : w.size ≤ len
  text : w.text = text.take len.toNat

/- The length that strstrip computes: of what is left of the text, as an int, or what the
null pointer makes of it. -/
def StripFits (null : Int) (inStr : Str) (len : Int) : Prop :=
  (trim inStr ≠ [] ∧ ((trim inStr).length ≤ 2147483647 ∨ len ≤ int (trim inStr).length)) ∨
    (trim inStr = [] ∧ 0 ≤ int (null + 1))

theorem strncpySize (src : Str) (n : Nat) : (strncpy src n).size = n := by
  simp only [Written.size,strncpy,List.length_take]
  omega

/- The last character that is no blank is the last of what is left. -/
theorem lastFromTrim (s : Str) (pos : Nat) (last : Option Nat) :
    lastFrom pos last s =
      if s.rdropWhile isspace = [] then last else some (pos + (s.rdropWhile isspace).length - 1) := by
  have concat (s : Str) (c : Char) : ∀ pos last, lastFrom pos last (s ++ [c]) =
      if isspace c then lastFrom pos last s else some (pos + s.length) := by
    induction s with
    | nil => exact fun pos last => rfl
    | cons d s ih =>
      intro pos last
      simp only [List.cons_append,lastFrom,ih,List.length_cons]
      split
      · rfl
      · congr 1
        omega
  induction s using List.reverseRecOn with
  | nil => rfl
  | append_singleton s c ih =>
    rw [concat,List.rdropWhile_concat]
    split
    · exact ih
    · rw [if_neg (by simp)]
      simp

theorem beginBlank {inStr : Str} (blank : trim inStr = []) : inStr.dropWhile isspace = [] := by
  cases begin : inStr.dropWhile isspace with
  | nil => rfl
  | cons c rest =>
    have all : isspace c = true := by
      unfold trim at blank
      rw [begin,List.rdropWhile_eq_nil_iff] at blank
      exact blank c List.mem_cons_self
    have first := List.head?_dropWhile_not isspace inStr
    rw [begin] at first
    simp [all] at first

/- The number strstrip compares with len. -/
def stripLength (null : Int) (inStr : Str) : Int :=
  int (if trim inStr = [] then null + 1 else (trim inStr).length)

theorem strstripLength {len : Int} (null : Int) (inStr : Str) (some_ : 1 ≤ len) :
    strstrip null inStr len = some (strncpy (inStr.dropWhile isspace)
      (sizeT (if stripLength null inStr < len then stripLength null inStr else len))) := by
  have room : ¬ len ≤ 0 := by omega
  unfold strstrip stripLength
  rw [if_neg room]
  simp only [lastFromTrim]
  cases left : trim inStr with
  | nil =>
    have none_ : (inStr.dropWhile isspace).rdropWhile isspace = [] := left
    simp only [none_,if_true]
  | cons c rest =>
    have all : (inStr.dropWhile isspace).rdropWhile isspace = c :: rest := left
    have length : (((0 + (c :: rest).length - 1 : Nat) : Int) + 1) = ((c :: rest).length : Int) := by
      simp only [List.length_cons]
      omega
    simp only [all,reduceCtorEq,if_false,length]

theorem sizeTSmall {n : Int} (low : 0 ≤ n) (high : n ≤ 2147483647) : (sizeT n : Int) = n := by
  unfold sizeT
  omega

/- A negative length is a huge one. -/
theorem sizeTNegative {n : Int} (low : -2147483648 ≤ n) (negative : n < 0) : 2147483647 < sizeT n := by
  unfold sizeT
  omega

theorem intBounds (n : Int) : -2147483648 ≤ int n ∧ int n ≤ 2147483647 := by
  unfold int
  rw [Int.bmod_def]
  split <;> omega

theorem intSmall {n : Int} (low : 0 ≤ n) (high : n ≤ 2147483647) : int n = n := by
  unfold int
  rw [Int.bmod_def]
  split <;> omega

theorem intLe {n : Int} (low : 0 ≤ n) : int n ≤ n := by
  unfold int
  rw [Int.bmod_def]
  split <;> omega

/- What is copied of the text as long as the length does not go past what is left of it. -/
theorem copied {inStr : Str} {n : Nat} (within : n ≤ (trim inStr).length) :
    strncpy (inStr.dropWhile isspace) n = ⟨(trim inStr).take n,0⟩ := by
  obtain ⟨rest,whole⟩ := List.rdropWhile_prefix isspace (inStr.dropWhile isspace)
  have split : inStr.dropWhile isspace = trim inStr ++ rest := whole.symm
  have length := congrArg List.length split
  rw [List.length_append] at length
  unfold strncpy
  rw [split,List.take_append_of_le_length within]
  congr 1
  rw [← split]
  omega

theorem blankRespects {null len : Int} {inStr : Str} (some_ : 1 ≤ len) (high : len ≤ 2147483647)
    (blank : trim inStr = []) :
    Respects len (trim inStr) (strncpy (inStr.dropWhile isspace)
      (sizeT (if stripLength null inStr < len then stripLength null inStr else len))) ↔ 0 ≤ int (null + 1) := by
  have l : stripLength null inStr = int (null + 1) := by
    unfold stripLength
    rw [if_pos blank]
  obtain ⟨low,_⟩ := intBounds (null + 1)
  rw [l]
  constructor
  · intro respects
    have size := respects.size
    rw [strncpySize] at size
    by_contra negative
    have less : int (null + 1) < len := by omega
    rw [if_pos less] at size
    have huge := sizeTNegative low (by omega)
    omega
  · intro fits
    refine ⟨?_,?_⟩
    · rw [strncpySize]
      split
      · rw [sizeTSmall fits (by omega)]
        omega
      · rw [sizeTSmall (by omega) high]
    · rw [beginBlank blank,blank]
      simp [strncpy]

theorem leftRespects {null len : Int} {inStr : Str} (some_ : 1 ≤ len) (high : len ≤ 2147483647)
    (left : trim inStr ≠ []) :
    Respects len (trim inStr) (strncpy (inStr.dropWhile isspace)
      (sizeT (if stripLength null inStr < len then stripLength null inStr else len))) ↔
        (trim inStr).length ≤ 2147483647 ∨ len ≤ int (trim inStr).length := by
  have l : stripLength null inStr = int (trim inStr).length := by
    unfold stripLength
    rw [if_neg left]
  have low := intBounds (trim inStr).length
  have most : int (trim inStr).length ≤ (trim inStr).length := intLe (by omega)
  rw [l]
  constructor
  · intro respects
    by_contra wraps
    obtain ⟨long,short⟩ := not_or.mp wraps
    have less : int (trim inStr).length < len := by omega
    obtain ⟨size,text⟩ := respects
    rw [strncpySize,if_pos less] at size
    by_cases negative : int (trim inStr).length < 0
    · have huge := sizeTNegative low.1 negative
      omega
    · have same := sizeTSmall (by omega) low.2
      rw [if_pos less,copied (by omega)] at text
      have lengths := congrArg List.length text
      simp only [List.length_take] at lengths
      omega
  · intro fits
    have bytes : (sizeT (if int (trim inStr).length < len then int (trim inStr).length else len) : Int) =
        min ((trim inStr).length : Int) len := by
      split
      · rename_i less
        have short : (trim inStr).length ≤ 2147483647 := fits.resolve_right (by omega)
        rw [intSmall (by omega) (by omega)] at less ⊢
        rw [sizeTSmall (by omega) (by omega),min_eq_left (by omega)]
      · rw [sizeTSmall (by omega) high,min_eq_right (by omega)]
    generalize sizeT _ = n at bytes ⊢
    refine ⟨?_,?_⟩
    · rw [strncpySize,bytes]
      exact min_le_right _ _
    · rw [copied (by omega),List.take_eq_take_iff]
      omega

/- The loop ends with the text: i stays 0. -/
theorem stripAllUnspaced {len : Int} (some_ : 1 ≤ len) (inStr : Str) : strstripAll inStr len = ⟨unspaced inStr,0⟩ := by
  have all : stripAllFrom 0 len inStr = unspaced inStr := by
    induction inStr with
    | nil => rfl
    | cons c rest ih =>
      have room : 0 < len := by omega
      simp only [stripAllFrom,unspaced,if_pos room,List.filter_cons]
      rw [ih,unspaced]
      cases isspace c <;> rfl
  rw [strstripAll,all]

/- Both keep to the length when it fits the text, and only then. -/
theorem lengthRespected (null : Int) (inStr : Str) (len : Int) (some_ : 1 ≤ len) (high : len ≤ 2147483647) :
    ((∃ w, strstrip null inStr len = some w ∧ Respects len (trim inStr) w) ↔ StripFits null inStr len) ∧
    (Respects len (unspaced inStr) (strstripAll inStr len) ↔ (unspaced inStr).length ≤ len) := by
  refine ⟨?_,?_⟩
  · rw [strstripLength null inStr some_]
    simp only [Option.some.injEq,exists_eq_left']
    unfold StripFits
    by_cases blank : trim inStr = []
    · rw [blankRespects some_ high blank]
      simp [blank]
    · rw [leftRespects some_ high blank]
      simp [blank]
  · rw [stripAllUnspaced some_]
    constructor
    · intro respects
      have size := respects.size
      simpa [Written.size] using size
    · intro fits
      refine ⟨by simpa [Written.size] using fits,?_⟩
      rw [List.take_of_length_le (by omega)]

/- One blank and one letter. -/
theorem oneLetterRespected : ((∃ w, strstrip 0 [' ','a'] 8 = some w ∧ Respects 8 (trim [' ','a']) w) ↔
    StripFits 0 [' ','a'] 8) ∧ (Respects 8 (unspaced [' ','a']) (strstripAll [' ','a'] 8) ↔
      (unspaced [' ','a']).length ≤ (8 : Int)) :=
  lengthRespected 0 [' ','a'] 8 (by decide) (by decide)

/- An empty text at 0x555555559000 pads 8 bytes with nearly 2^64; three letters go into one byte. -/
theorem lengthExceeded :
    (strstrip (-0x555555559000) [] 8).map Written.size = some 18446744072277880833 ∧
    strstripAll ['a','b','c'] 1 = ⟨['a','b','c'],0⟩ ∧
    ¬ (∃ w, strstrip (-0x555555559000) [] 8 = some w ∧ Respects 8 (trim []) w) ∧
    ¬ Respects 1 (unspaced ['a','b','c']) (strstripAll ['a','b','c'] 1) := by
  refine ⟨by decide,by decide,?_,fun respects => absurd respects.size (by decide)⟩
  rintro ⟨w,writes,respects⟩
  cases Option.some.inj writes
  exact absurd respects.size (by decide)

/- In parse_cron_entry the length is that of the text itself. -/
theorem cronStrip (null : Int) {inStr text : Str} (stripped : CronText.strstrip inStr = some text) (some_ : inStr ≠ [])
    (short : inStr.length ≤ 2147483647) : strstrip null inStr inStr.length = some ⟨text,0⟩ := by
  have letters := List.length_pos_iff.mpr some_
  have left : trim inStr ≠ [] ∧ trim inStr = text := by
    unfold CronText.strstrip at stripped
    rw [if_neg some_] at stripped
    split at stripped
    · cases stripped
    · rename_i begin
      exact ⟨fun blank => begin (beginBlank blank),Option.some.inj stripped⟩
  have most : (trim inStr).length ≤ inStr.length :=
    Nat.le_trans (List.rdropWhile_prefix isspace _).length_le (List.dropWhile_sublist isspace).length_le
  have length : stripLength null inStr = (trim inStr).length := by
    unfold stripLength
    rw [if_neg left.1]
    exact intSmall (by omega) (by omega)
  have bytes : sizeT (if stripLength null inStr < inStr.length then stripLength null inStr else inStr.length) =
      (trim inStr).length := by
    have same : (sizeT (if stripLength null inStr < inStr.length then stripLength null inStr else inStr.length) : Int) =
        (trim inStr).length := by
      rw [length]
      split
      · exact sizeTSmall (by omega) (by omega)
      · rw [sizeTSmall (by omega) (by omega)]
        omega
    omega
  rw [strstripLength null inStr (by omega),bytes,copied (Nat.le_refl _),List.take_length,left.2]

end CuteNdk.Ndk
