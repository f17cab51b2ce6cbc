import CuteNdk.PullHttpAgent
import Mathlib.Data.Bool.AllAny

/-! What handle_response finds in a response header when more is in the buffer than
the header: the same, as long as each search that fails on the header fails on the
rest too. -/
namespace CuteNdk.PullHttpAgent
open Lib.CString HttpParser

/- A search that finds nothing in the header finds nothing in what is behind it. -/
def Inside (find : Str → Option Str) (s attached : Str) : Prop := find s = none → find (s ++ attached) = none
instance (find : Str → Option Str) (s attached : Str) : Decidable (Inside find s attached) := by
  unfold Inside; infer_instance

def FieldInside (key s attached : Str) : Prop :=
  Inside (fun t => strstr t key) s attached ∧
    ∀ keyP ∈ strstr s key, Inside (fun t => strchr t ':') (keyP.drop key.length) attached
instance (key s attached : Str) : Decidable (FieldInside key s attached) := by
  unfold FieldInside; infer_instance

def RangeInside (s attached : Str) : Prop :=
  FieldInside "Content-Range".toList s attached ∧
    ∀ v ∈ getValue s "Content-Range".toList,
      ((charAt (v.1.drop (strspn v.1 "bytes \t".toList)) 0).isDigit = true →
        Inside (fun t => strchr t '-') ((v.1.drop (strspn v.1 "bytes \t".toList)).drop 1) attached) ∧
      Inside (fun t => strchr t '/') (v.1.drop (strspn v.1 "bytes \t".toList)) attached
instance (s attached : Str) : Decidable (RangeInside s attached) := by
  unfold RangeInside; infer_instance

/- The searches handle_response comes to. -/
def SearchesInside (s attached : Str) : Prop :=
  charAt (s.drop (strspn s [' ','\t'])) 0 = '2' → charAt (s.drop (strspn s [' ','\t'])) 1 = '0' →
    FieldInside "Content-Length".toList s attached ∧
      (charAt (s.drop (strspn s [' ','\t'])) 2 = '6' → RangeInside s attached)
instance (s attached : Str) : Decidable (SearchesInside s attached) := by
  unfold SearchesInside; infer_instance

/- No control characters but those that end a line or stand for a blank. -/
def Plain (c : Char) : Prop := c = '\t' ∨ c = '\r' ∨ c = '\n' ∨ 32 ≤ c.toNat
instance (c) : Decidable (Plain c) := by unfold Plain; infer_instance

def NoBreak (c : Char) : Prop := c ≠ '\r' ∧ c ≠ '\n'
instance (c) : Decidable (NoBreak c) := by unfold NoBreak; infer_instance

/- What is left of a header, its end included. -/
structure Rest (s : Str) : Prop where
  ends : headerEnd <:+ s
  plain : ∀ c ∈ s, Plain c

theorem restLength {s : Str} (h : Rest s) : 4 ≤ s.length := h.ends.length_le

theorem restBreak {s : Str} (h : Rest s) : '\r' ∈ s := h.ends.subset List.mem_cons_self

theorem restSuffix {s t : Str} {c : Char} (h : Rest s) (suffix : t <:+ s) (first : t.head? = some c)
    (inLine : NoBreak c) : Rest t := by
  refine ⟨?_,fun d mem => h.plain d (suffix.subset mem)⟩
  rcases List.suffix_or_suffix_of_suffix h.ends suffix with ends | short
  · exact ends
  · have mem : c ∈ headerEnd := short.subset (List.mem_of_mem_head? first)
    have breaks : c = '\r' ∨ c = '\n' := by
      simp only [headerEnd,List.mem_cons,List.not_mem_nil,or_false] at mem
      rcases mem with rfl | rfl | rfl | rfl
      · exact Or.inl rfl
      · exact Or.inr rfl
      · exact Or.inl rfl
      · exact Or.inr rfl
    rcases breaks with rfl | rfl
    · exact absurd rfl inLine.1
    · exact absurd rfl inLine.2

theorem restTail {s : Str} {c : Char} (h : Rest (c :: s)) (inLine : NoBreak c) : Rest s := by
  refine ⟨?_,fun d mem => h.plain d (List.mem_cons_of_mem c mem)⟩
  rcases List.suffix_cons_iff.1 h.ends with same | ends
  · have first : '\r' = c := (List.cons.inj same).1
    exact absurd first.symm inLine.1
  · exact ends

theorem restAppend {x s : Str} (h : Rest (x ++ s)) (inLine : ∀ c ∈ x, NoBreak c) : Rest s := by
  induction x with
  | nil => exact h
  | cons c x ih =>
    exact ih (restTail h (inLine c List.mem_cons_self)) fun d mem => inLine d (List.mem_cons_of_mem c mem)

theorem restDropWhile {s : Str} {p : Char → Bool} (h : Rest s) (inLine : ∀ c, p c = true → NoBreak c) :
    Rest (s.dropWhile p) := by
  have split := List.takeWhile_append_dropWhile (p := p) (l := s)
  exact restAppend (split.symm ▸ h) fun c mem => inLine c (List.all_eq_true.1 List.all_takeWhile c mem)

/- strspn with blanks, and what comes behind them. -/
theorem skipAppend {s accept : Str} (attached : Str) (h : Rest s) (inLine : ∀ c ∈ accept, NoBreak c) :
    (s ++ attached).drop (strspn (s ++ attached) accept) = s.drop (strspn s accept) ++ attached ∧
      Rest (s.drop (strspn s accept)) := by
  have accepted : ∀ c, accept.contains c = true → NoBreak c := fun c yes => inLine c (List.contains_iff_mem.1 yes)
  have stop : ∃ c ∈ s, accept.contains c = false := by
    refine ⟨'\r',restBreak h,Bool.eq_false_iff.2 fun yes => ?_⟩
    exact (accepted '\r' yes).1 rfl
  unfold strspn
  rw [dropSpan,dropSpan]
  exact ⟨(spanStops stop).2,restDropWhile h accepted⟩

theorem charAppend {s attached : Str} {n : Nat} (h : n < s.length) : charAt (s ++ attached) n = charAt s n := by
  unfold charAt
  rw [List.getD_eq_getElem?_getD,List.getD_eq_getElem?_getD,List.getElem?_append_left h]

theorem restChar {s attached : Str} (h : Rest s) {n : Nat} (small : n < 4) :
    charAt (s ++ attached) n = charAt s n :=
  charAppend (Nat.lt_of_lt_of_le small (restLength h))

theorem charHead {s : Str} (h : Rest s) : s.head? = some (charAt s 0) := by
  cases s with
  | nil => exact absurd (restLength h) (by decide)
  | cons c s => rfl

theorem strchrRest {s r : Str} {c : Char} (h : Rest s) (found : strchr s c = some r) (inLine : NoBreak c) :
    Rest r ∧ Rest (r.drop 1) ∧ r.head? = some c := by
  obtain ⟨pre,post,split,first⟩ := strchrSplit found
  have rest : Rest r := restSuffix h ⟨pre,split.symm⟩ (by rw [first]; rfl) inLine
  refine ⟨rest,?_,by rw [first]; rfl⟩
  rw [first] at rest ⊢
  exact restTail rest inLine

theorem digitPlain {c : Char} (digit : c.isDigit = true) : NoBreak c := by
  obtain ⟨space,-,-⟩ := digitNotSpace digit
  refine ⟨?_,?_⟩
  · rintro rfl
    exact absurd space (by decide)
  · rintro rfl
    exact absurd space (by decide)

/- A number in a header is read to its end. -/
theorem restNumber {s attached : Str} (h : Rest s) (space : isspace (charAt s 0) = false) :
    strtoll (s ++ attached) = strtoll s := by
  have later : '\r' ∈ s.tail := by
    have mem := restBreak h
    have first := charHead h
    cases s with
    | nil => cases mem
    | cons c s =>
      refine (List.mem_cons.1 mem).resolve_left fun same => ?_
      rw [← same] at space
      cases space
  exact strtollAppend (charHead h) space later (by decide)

theorem backAppend {s attached : Str} {n : Nat} (h : n < s.length) :
    backOverSpace (s ++ attached) n = backOverSpace s n := by
  induction n with
  | zero => rfl
  | succ n ih =>
    rw [backOverSpace,backOverSpace,charAppend h,ih (by omega)]

/- A key of a header field. -/
structure Key (key : Str) : Prop where
  some_ : key ≠ []
  inLine : ∀ c ∈ key, NoBreak c

theorem keyRest {s key keyP : Str} (h : Rest s) (k : Key key) (found : strstr s key = some keyP) :
    Rest (keyP.drop key.length) ∧ key.length ≤ keyP.length := by
  obtain ⟨⟨rest,split⟩,suffix⟩ := strstrFound found
  subst split
  have first : (key ++ rest).head? = some (key.head k.some_) := by
    rw [List.head?_append_of_ne_nil _ k.some_,List.head?_eq_some_head k.some_]
  have all := restSuffix h suffix first (k.inLine _ (List.head_mem k.some_))
  rw [List.drop_left]
  exact ⟨restAppend all k.inLine,by rw [List.length_append]; omega⟩

theorem blankInLine : ∀ c ∈ [' ','\t'], NoBreak c := List.all_iff_forall_prop.1 (by decide)

theorem bytesInLine : ∀ c ∈ "bytes \t".toList, NoBreak c := List.all_iff_forall_prop.1 (by decide)

/- The value of a field lies in its line and does not start with a blank. -/
theorem valueRest {s key : Str} {v : Str × Nat} (h : Rest s) (k : Key key) (found : getValue s key = some v) :
    Rest v.1 ∧ isspace (charAt v.1 0) = false := by
  unfold getValue at found
  cases at_ : strstr s key with
  | none => simp only [at_] at found; cases found
  | some keyP =>
    simp only [at_] at found
    cases colon_ : strchr (keyP.drop key.length) ':' with
    | none => simp only [colon_] at found; cases found
    | some colon =>
      simp only [colon_] at found
      split at found
      · cases found
      · split at found
        · cases found
        · rename_i len
          cases found
          obtain ⟨-,rest,-⟩ := strchrRest (keyRest h k at_).1 colon_ (by decide)
          rw [List.drop_one] at rest
          have value : Rest (colon.tail.drop (strspn colon.tail [' ','\t'])) := (skipAppend [] rest blankInLine).2
          refine ⟨value,?_⟩
          generalize whole : colon.tail.drop (strspn colon.tail [' ','\t']) = t at value len
          have notSkipped : t = colon.tail.dropWhile (fun c => [' ','\t'].contains c) := by
            rw [← whole]
            exact dropSpan _ _
          cases t with
          | nil => exact absurd (restLength value) (by decide)
          | cons c t =>
            have other := List.head?_dropWhile_not (fun c => [' ','\t'].contains c) colon.tail
            rw [← notSkipped] at other
            have inLine : c ≠ '\r' ∧ c ≠ '\n' := by
              refine ⟨fun same => len ?_,fun same => len ?_⟩
              · subst c
                rfl
              · subst c
                rfl
            have plain := value.plain c List.mem_cons_self
            change isspace c = false
            simp only [List.head?_cons,List.contains_cons,List.contains_nil,Bool.or_false,Bool.or_eq_false_iff,
              beq_eq_false_iff_ne] at other
            simp only [isspace,Bool.or_eq_false_iff,beq_eq_false_iff_ne,decide_eq_false_iff_not]
            refine ⟨by simpa using other.1,fun control => ?_⟩
            rcases plain with tab | cr | lf | printable
            · exact other.2 tab
            · exact inLine.1 cr
            · exact inLine.2 lf
            · omega

theorem getValueAppend {s key attached : Str} (h : Rest s) (k : Key key) (inside : FieldInside key s attached) :
    getValue (s ++ attached) key = (getValue s key).map fun v => (v.1 ++ attached,v.2) := by
  unfold getValue
  cases at_ : strstr s key with
  | none =>
    have missing : strstr (s ++ attached) key = none := inside.1 at_
    simp only [missing,Option.map_none]
  | some keyP =>
    obtain ⟨restKey,longer⟩ := keyRest h k at_
    simp only [strstrAppend at_,List.drop_append_of_le_length longer]
    cases colon_ : strchr (keyP.drop key.length) ':' with
    | none =>
      have missing : strchr (keyP.drop key.length ++ attached) ':' = none := inside.2 keyP at_ colon_
      simp only [missing,Option.map_none]
    | some colon =>
      obtain ⟨rest,restTail_,-⟩ := strchrRest restKey colon_ (by decide)
      have tail : (colon ++ attached).tail = colon.tail ++ attached := by
        rw [← List.drop_one,← List.drop_one,List.drop_append_of_le_length]
        exact Nat.le_trans (by decide) (restLength rest)
      rw [List.drop_one] at restTail_
      obtain ⟨skipped,value⟩ := skipAppend attached restTail_ blankInLine
      simp only [strchrAppend colon_,restChar rest (show 1 < 4 by decide),tail,skipped]
      generalize colon.tail.drop (strspn colon.tail [' ','\t']) = t at value ⊢
      have stop : ∃ c ∈ t, (! ['\r','\n'].contains c) = false := ⟨'\r',restBreak value,by decide⟩
      have len : strcspn (t ++ attached) ['\r','\n'] = strcspn t ['\r','\n'] := by
        unfold strcspn
        rw [(spanStops stop).1]
      have short : strcspn t ['\r','\n'] < t.length := by
        obtain ⟨c,mem,no⟩ := stop
        refine Nat.lt_of_le_of_ne (List.takeWhile_prefix _).length_le fun same => ?_
        rw [← (List.takeWhile_prefix _).eq_of_length same] at mem
        have yes := List.all_eq_true.1 List.all_takeWhile c mem
        rw [no] at yes
        cases yes
      rw [len,backAppend short]
      split
      · rfl
      · split <;> rfl

theorem rangeKey : Key "Content-Range".toList := ⟨by decide,List.all_iff_forall_prop.1 (by decide)⟩

theorem lengthKey : Key "Content-Length".toList := ⟨by decide,List.all_iff_forall_prop.1 (by decide)⟩

theorem digitNumber {s attached : Str} (h : Rest s) (digit : (charAt s 0).isDigit = true) :
    strtoll (s ++ attached) = strtoll s :=
  restNumber h (digitNotSpace digit).1

/- The number behind a separator, when there is one. -/
theorem numberBehind {s attached : Str} (h : Rest (s.drop 1)) (some_ : 4 ≤ s.length)
    (digit : (charAt s 1).isDigit = true) : strtoll ((s ++ attached).drop 1) = strtoll (s.drop 1) := by
  rw [List.drop_append_of_le_length (by omega)]
  refine digitNumber h ?_
  cases s with
  | nil => exact absurd some_ (by decide)
  | cons c s => exact digit

theorem rangeBoundsAppend {s attached : Str} (h : Rest s)
    (dash : (charAt s 0).isDigit = true → Inside (fun t => strchr t '-') (s.drop 1) attached) :
    rangeBounds (s ++ attached) = rangeBounds s := by
  have long := restLength h
  have tail : (s ++ attached).drop 1 = s.drop 1 ++ attached := List.drop_append_of_le_length (by omega)
  unfold rangeBounds
  rw [restChar h (show 0 < 4 by decide),restChar h (show 1 < 4 by decide),tail]
  by_cases digit : (charAt s 0).isDigit = true
  · rw [if_pos digit,if_pos digit,digitNumber h digit]
    cases found : strchr (s.drop 1) '-' with
    | none => simp only [show strchr (s.drop 1 ++ attached) '-' = none from dash digit found]
    | some sep =>
      have rest : Rest (s.drop 1) := by
        cases s with
        | nil => exact absurd long (by decide)
        | cons c s => exact restTail h (digitPlain digit)
      obtain ⟨restSep,behind,-⟩ := strchrRest rest found (by decide)
      simp only [strchrAppend found,restChar restSep (show 1 < 4 by decide)]
      split
      · rename_i next
        rw [numberBehind behind (restLength restSep) next]
      · rfl
  · rw [if_neg digit,if_neg digit]
    by_cases minus : charAt s 0 = '-'
    · rw [if_pos minus,if_pos minus]
      have rest : Rest (s.drop 1) := by
        cases s with
        | nil => exact absurd long (by decide)
        | cons c s =>
          have first : c = '-' := minus
          exact restTail h (by rw [first]; decide)
      split
      · rename_i next
        rw [← tail,numberBehind rest long next]
      · rfl
    · rw [if_neg minus,if_neg minus]

theorem rangeEntityAppend {s attached : Str} (h : Rest s) (slash : Inside (fun t => strchr t '/') s attached) :
    rangeEntity (s ++ attached) = rangeEntity s := by
  unfold rangeEntity
  cases found : strchr s '/' with
  | none => simp only [show strchr (s ++ attached) '/' = none from slash found]
  | some sep =>
    obtain ⟨restSep,behind,-⟩ := strchrRest h found (by decide)
    simp only [strchrAppend found,restChar restSep (show 1 < 4 by decide)]
    split
    · rename_i next
      rw [numberBehind behind (restLength restSep) next]
    · rfl

theorem getContentRangeAppend {s attached : Str} (h : Rest s) (inside : RangeInside s attached) :
    getContentRange (s ++ attached) = getContentRange s := by
  obtain ⟨field,later⟩ := inside
  unfold getContentRange
  rw [getValueAppend h rangeKey field]
  cases value_ : getValue s "Content-Range".toList with
  | none => rfl
  | some v =>
    obtain ⟨restV,-⟩ := valueRest h rangeKey value_
    obtain ⟨skipped,rest⟩ := skipAppend attached restV bytesInLine
    obtain ⟨dash,slash⟩ := later v value_
    simp only [Option.map_some,skipped,rangeBoundsAppend rest dash,rangeEntityAppend rest slash]

/- What the status line and the fields say, with anything behind the header. -/
theorem decideAppend {s attached : Str} (beginPos endPos : Int) (h : Rest s)
    (status : (charAt (s.drop (strspn s [' ','\t'])) 0).isDigit = true) (inside : SearchesInside s attached) :
    responseDecision beginPos endPos (s ++ attached) = responseDecision beginPos endPos s := by
  obtain ⟨skipped,rest⟩ := skipAppend attached h blankInLine
  unfold SearchesInside at inside
  unfold responseDecision
  simp only [skipped]
  generalize s.drop (strspn s [' ','\t']) = code at status inside rest ⊢
  have later : '\r' ∈ code.tail := by
    have mem := restBreak rest
    cases code with
    | nil => cases mem
    | cons c code =>
      refine (List.mem_cons.1 mem).resolve_left fun same => ?_
      rw [← same] at status
      cases status
  have respCode : atoi (code ++ attached) = atoi code :=
    atoiAppend (charHead rest) (digitNotSpace status).1 later (by decide)
  simp only [respCode,restChar rest (show 0 < 4 by decide),restChar rest (show 1 < 4 by decide),
    restChar rest (show 2 < 4 by decide)]
  by_cases ok : charAt code 0 = '2' ∧ charAt code 1 = '0'
  · obtain ⟨lengthInside,rangeInside⟩ := inside ok.1 ok.2
    simp only [ok,and_self,if_true,getValueAppend h lengthKey lengthInside]
    cases value_ : getValue s "Content-Length".toList with
    | none => rfl
    | some v =>
      obtain ⟨restV,space⟩ := valueRest h lengthKey value_
      simp only [Option.map_some,restNumber restV space]
      split
      · rfl
      · split
        · rename_i ranged
          rw [getContentRangeAppend h (rangeInside ranged)]
        · rfl
  · simp only [ok,if_false]

end CuteNdk.PullHttpAgent
