import CuteNdk.CronText
import CuteNdk.CronFieldMeaning

/-! What the recognisers do with an item of a field, whatever its text: which items
they refuse, which take them past the item array, and that the others are accepted.
From that, what a list of items comes to. -/
namespace CuteNdk.CronText
open Lib.CString
open CronField (Item put fill fillFrom putMarks fillFromMarks getListByToken)

def Out (r : Range) (n : Int) : Prop := n > r.last ∨ n < r.first
instance (r n) : Decidable (Out r n) := inferInstanceAs (Decidable (_ ∨ _))

def startsWithDigit (t : Str) : Bool := (t.head?.map Char.isDigit).getD false

/- The items that are answered with -1. -/
def Refused (r : Range) (t : Str) : Prop :=
  if '-' ∈ t ∧ '/' ∈ t then
    (t.count '-' > 1 ∨ t.count '/' > 1 ∨ t.head? = some '/') ∨
      stepOf t = 0 ∨ Out r (stepBounds r t).1 ∨ Out r (stepBounds r t).2 ∨ Out r (stepOf t)
  else if '-' ∈ t then
    t.count '-' > 1 ∨ t.head? ≠ some '-' ∧ t.getLast? ≠ some '-' ∧
      (Out r (scanBounds t).1 ∨ Out r (scanBounds t).2)
  else if '/' ∈ t then
    t.count '/' > 1 ∨ if t.head? = some '*' then t[1]? ≠ some '/' ∨ atoi (t.drop 2) = 0 else Out r (scanned t)
  else t.head? ≠ some '*' ∧ startsWithDigit t = false

/- The items that write past the array: a number, and a range up to one. -/
def Overruns (r : Range) (t : Str) : Prop :=
  '/' ∉ t ∧ if '-' ∈ t then t.count '-' ≤ 1 ∧ t.head? = some '-' ∧ r.count ≤ atoi (t.drop 1)
    else startsWithDigit t = true ∧ r.count ≤ atoi t

instance (r t) : Decidable (Refused r t) := by unfold Refused; infer_instance
instance (r t) : Decidable (Overruns r t) := by unfold Overruns; infer_instance

def Whole (r : Range) (item : Item) : Prop := item.length = r.count

/- What a text comes to that is answered with -1 or 0 or undefined, and what is kept of
the arrays it is read into. -/
inductive Outcome {β : Type} (refused accepted : Prop) (kept : β → Prop) (result : Option (Int × β)) : Prop where
  | refuses (is : refused) (arrays : β) (gives : result = some (-1,arrays)) (keeps : kept arrays)
  | accepts (is : accepted) (arrays : β) (gives : result = some (0,arrays)) (keeps : kept arrays)
  | faults (no : ¬refused) (no' : ¬accepted) (gives : result = none)

section Loops
variable {item : Item} {a last step : Int}

theorem fillEnds (low : 0 ≤ a) (high : last < item.length) (positive : 1 ≤ step) :
    ∃ item' i, fill item a last step = some (item',i) ∧ item'.length = item.length ∧ 0 ≤ i := by
  obtain ⟨item',n,fills,length,_,_,_⟩ :=
    fillFromMarks positive ((last - a).toNat + 2) item low high (by omega)
  have far : 0 ≤ (n : Int) * step := Int.mul_nonneg (Int.natCast_nonneg n) (by omega)
  exact ⟨item',_,fills,length,by omega⟩

/- A loop whose bound is past the array leaves it before it is done. -/
theorem fillFromOverruns (low : 0 ≤ a) (more : a ≤ last) (high : item.length ≤ last) (fuel : Nat) :
    fillFrom last 1 fuel a item = none := by
  induction fuel generalizing a item with
  | zero => rfl
  | succ fuel ih =>
    simp only [fillFrom,if_pos more,bind,Option.bind]
    by_cases inside : a < item.length
    · obtain ⟨item',set,length,_⟩ := putMarks item ⟨low,inside⟩
      simp only [set]
      exact ih (by omega) (by omega) (by omega)
    · have out : put item a = none := if_neg fun both => inside both.2
      simp only [out]

theorem fillOverruns (low : 0 ≤ a) (more : a ≤ last) (high : item.length ≤ last) : fill item a last 1 = none :=
  fillFromOverruns low more high _

theorem putIff {n : Int} (low : 0 ≤ n) :
    (n < item.length → ∃ item', put item n = some item' ∧ item'.length = item.length) ∧
    (item.length ≤ n → put item n = none) := by
  constructor
  · intro inside
    obtain ⟨item',set,length,_⟩ := putMarks item ⟨low,inside⟩
    exact ⟨item',set,length⟩
  · intro past
    exact if_neg (by omega)

end Loops

section Numbers

theorem atoiUnsigned {s : Str} (free : '-' ∉ s) : 0 ≤ atoi s := by
  have plus : (sign (s.dropWhile isspace)).1 = false := by
    have other : (s.dropWhile isspace).head? ≠ some '-' := fun same =>
      free ((List.dropWhile_suffix isspace).subset (List.mem_of_mem_head? same))
    unfold sign
    rw [if_neg other]
    split <;> rfl
  rw [atoiDecimal,plus]
  exact Int.natCast_nonneg _

/- The number before a '-' at the end. -/
theorem atoiOpen {s : Str} (free : '-' ∉ s) : 0 ≤ atoi (s ++ ['-']) := by
  cases start : s.dropWhile isspace with
  | nil =>
    have blank : (s ++ ['-']).dropWhile isspace = ['-'] := by
      rw [List.dropWhile_append,start]
      decide
    rw [atoiDecimal,blank]
    decide
  | cons c rest =>
    have split : (s ++ ['-']).dropWhile isspace = c :: (rest ++ ['-']) := by
      rw [List.dropWhile_append,start]
      rfl
    have other : c ≠ '-' := fun same =>
      free ((List.dropWhile_suffix isspace).subset (start ▸ same ▸ List.mem_cons_self))
    have plus : (sign (c :: (rest ++ ['-']))).1 = false := by
      unfold sign
      rw [if_neg (by simpa using other)]
      split <;> rfl
    rw [atoiDecimal,split,plus]
    exact Int.natCast_nonneg _

/- A character that is there once. -/
theorem onceSplit {t : Str} {c : Char} (mem : c ∈ t) (once : ¬t.count c > 1) :
    ∃ pre post, t = pre ++ c :: post ∧ c ∉ pre ∧ c ∉ post := by
  obtain ⟨pre,post,rfl⟩ := List.append_of_mem mem
  rw [List.count_append,List.count_cons_self] at once
  exact ⟨pre,post,rfl,List.count_eq_zero.mp (by omega),List.count_eq_zero.mp (by omega)⟩

theorem headIff {pre post : Str} {c : Char} (fresh : c ∉ pre) : (pre ++ c :: post).head? = some c ↔ pre = [] := by
  cases pre with
  | nil => simp
  | cons d pre =>
    simp only [List.cons_append,List.head?_cons,Option.some.injEq,reduceCtorEq,iff_false]
    exact fun same => fresh (same ▸ List.mem_cons_self)

theorem lastIff {pre post : Str} {c : Char} (fresh : c ∉ post) :
    (pre ++ c :: post).getLast? = some c ↔ post = [] := by
  constructor
  · intro last
    by_contra some_
    rw [List.getLast?_append_of_ne_nil _ (List.cons_ne_nil c post),List.getLast?_cons_of_ne_nil some_] at last
    exact fresh (List.mem_of_getLast? last)
  · rintro rfl
    simp

end Numbers

/- An item and what its recogniser gives for it. -/
def Reads (r : Range) (t : Str) (result : Option (Int × Item)) : Prop :=
  Outcome (Refused r t) (¬Refused r t ∧ ¬Overruns r t) (Whole r) result

section Recognisers
variable {r : Range} {t : Str} {item : Item} {result : Option (Int × Item)}

theorem readsRefused (whole : Whole r item) (is : Refused r t) (gives : result = some (-1,item)) :
    Reads r t result := .refuses is item gives whole

theorem readsAccepted (whole : Whole r item) (no : ¬Refused r t) (within : ¬Overruns r t)
    (gives : ∃ item', result = some (0,item') ∧ item'.length = item.length) : Reads r t result := by
  obtain ⟨item',gives,length⟩ := gives
  exact .accepts ⟨no,within⟩ item' gives (length.trans whole)

theorem readsOverrun (no : ¬Refused r t) (past : Overruns r t) (gives : result = none) : Reads r t result :=
  .faults no (fun both => both.2 past) gives

theorem fillDone {a last step : Int} (low : 0 ≤ a) (high : last < item.length) (positive : 1 ≤ step) :
    ∃ item', (fill item a last step).map CronField.done = some (0,item') ∧ item'.length = item.length := by
  obtain ⟨item',i,fills,length,_⟩ := fillEnds low high positive
  exact ⟨item',by rw [fills]; rfl,length⟩

/- The two loops of a range that runs through last and first. -/
theorem fillWraps {b e step : Int} (whole : Whole r item) (low : 0 ≤ b) (high : e ≤ r.last) (positive : 1 ≤ step)
    {next : Int → Int} (nonneg : ∀ i, 0 ≤ i → 0 ≤ next i) :
    ∃ item', ((fill item b r.last step).bind fun p => (fill p.1 (next p.2) e step).map CronField.done)
      = some (0,item') ∧ item'.length = item.length := by
  have length : item.length = r.last + 1 := whole
  obtain ⟨item₁,i,fills,length₁,ends⟩ := @fillEnds item b r.last step low (by omega) positive
  obtain ⟨item₂,fills₂,length₂⟩ :=
    @fillDone item₁ (next i) e step (nonneg i ends) (by omega) positive
  refine ⟨item₂,?_,by omega⟩
  rw [fills]
  exact fills₂

theorem itemReads (whole : Whole r item) (dash : '-' ∉ t) (slash : '/' ∉ t) :
    Reads r t (CronField.getListByItem t item r.first r.last) := by
  have length : item.length = r.last + 1 := whole
  have order := r.order
  have noRange : ¬('-' ∈ t ∧ '/' ∈ t) := fun both => dash both.1
  have refusedIff : Refused r t ↔ t.head? ≠ some '*' ∧ startsWithDigit t = false := by
    unfold Refused
    rw [if_neg noRange,if_neg dash,if_neg slash]
  have overrunsIff : Overruns r t ↔ startsWithDigit t = true ∧ (r.count : Int) ≤ atoi t := by
    unfold Overruns
    rw [if_neg dash,and_iff_right slash]
  cases t with
  | nil => exact readsRefused whole (refusedIff.mpr (by decide)) rfl
  | cons c rest =>
    have starts : startsWithDigit (c :: rest) = c.isDigit := rfl
    by_cases star : c = '*'
    · subst c
      have no : ¬Refused r ('*' :: rest) := fun is => (refusedIff.mp is).1 rfl
      have within : ¬Overruns r ('*' :: rest) := fun past => 
        absurd (overrunsIff.mp past).1 (show ¬ '*'.isDigit = true by decide)
      exact readsAccepted whole no within (fillDone (by omega) (by omega) (by omega))
    · have picked : CronField.getListByItem (c :: rest) item r.first r.last =
          if c.isDigit then (put item (atoi (c :: rest))).map (0,·) else some (-1,item) := by
        unfold CronField.getListByItem
        split
        · rename_i same
          cases same
          contradiction
        · rename_i same
          cases same
          rfl
        · rename_i same
          cases same
      rw [picked]
      by_cases digit : c.isDigit = true
      · have no : ¬Refused r (c :: rest) := fun is => by
          have other := (refusedIff.mp is).2
          rw [starts,digit] at other
          cases other
        have low : 0 ≤ atoi (c :: rest) := by
          obtain ⟨number,stop⟩ := digitsFirst (s := c :: rest) rfl digit
          have value := atoiDigits number stop
          rw [List.takeWhile_append_dropWhile] at value
          omega
        have puts := @putIff item _ low
        rw [if_pos digit]
        by_cases past : (r.count : Int) ≤ atoi (c :: rest)
        · refine readsOverrun no (overrunsIff.mpr ⟨starts.trans digit,past⟩) ?_
          rw [puts.2 (by unfold Range.count at past; omega)]
          rfl
        · have within : ¬Overruns r (c :: rest) := fun is => past (overrunsIff.mp is).2
          obtain ⟨item',set,length'⟩ := puts.1 (by unfold Range.count at past; omega)
          exact readsAccepted whole no within ⟨item',by rw [set]; rfl,length'⟩
      · rw [if_neg digit]
        exact readsRefused whole (refusedIff.mpr ⟨by simpa using star,starts.trans (Bool.not_eq_true _ ▸ digit)⟩) rfl

theorem rangeReads (whole : Whole r item) (dash : '-' ∈ t) (slash : '/' ∉ t) :
    Reads r t (CronField.getListByRange t item r.first r.last) := by
  have length : item.length = r.last + 1 := whole
  have order := r.order
  have noStep : ¬('-' ∈ t ∧ '/' ∈ t) := fun both => slash both.2
  have refusedIff : Refused r t ↔ t.count '-' > 1 ∨ t.head? ≠ some '-' ∧ t.getLast? ≠ some '-' ∧
      (Out r (scanBounds t).1 ∨ Out r (scanBounds t).2) := by
    unfold Refused
    rw [if_neg noStep,if_pos dash]
  have overrunsIff : Overruns r t ↔ t.count '-' ≤ 1 ∧ t.head? = some '-' ∧ (r.count : Int) ≤ atoi (t.drop 1) := by
    unfold Overruns
    rw [if_pos dash,and_iff_right slash]
  unfold CronField.getListByRange
  by_cases many : t.count '-' > 1
  · rw [if_pos many]
    exact readsRefused whole (refusedIff.mpr (.inl many)) rfl
  · obtain ⟨pre,post,rfl,before,after⟩ := onceSplit dash many
    have found : strchr (pre ++ '-' :: post) '-' = some ('-' :: post) := strchrFound before
    rw [if_neg many,found]
    cases pre with
    | nil =>
      have no : ¬Refused r ('-' :: post) := fun is => by
        rcases refusedIff.mp is with more | rest
        · exact many more
        · exact rest.1 rfl
      have low := atoiUnsigned after
      simp only [List.nil_append,if_true,List.drop_one,List.tail_cons]
      by_cases past : (r.count : Int) ≤ atoi post
      · refine readsOverrun no (overrunsIff.mpr ⟨by omega,rfl,past⟩) ?_
        unfold Range.count at past
        rw [fillOverruns (by omega) (by omega) (by omega)]
        rfl
      · have within : ¬Overruns r ('-' :: post) := fun is => past (overrunsIff.mp is).2.2
        unfold Range.count at past
        exact readsAccepted whole no within (fillDone (by omega) (by omega) (by omega))
    | cons c pre =>
      have longer : ('-' :: post).length ≠ (c :: pre ++ '-' :: post).length := by
        simp only [List.length_append,List.length_cons]
        omega
      have head : (c :: pre ++ '-' :: post).head? ≠ some '-' := fun same => List.cons_ne_nil c pre ((headIff before).mp same)
      have within : ¬Overruns r (c :: pre ++ '-' :: post) := fun is => head (overrunsIff.mp is).2.1
      simp only [if_neg longer,List.drop_one,List.tail_cons]
      cases post with
      | nil =>
        have no : ¬Refused r (c :: pre ++ ['-']) := fun is => by
          rcases refusedIff.mp is with more | rest
          · exact many more
          · exact rest.2.1 ((lastIff after).mpr rfl)
        exact readsAccepted whole no within (fillDone (atoiOpen before) (by omega) (by omega))
      | cons d post =>
        have last : (c :: pre ++ '-' :: d :: post).getLast? ≠ some '-' := fun same =>
          List.cons_ne_nil d post ((lastIff after).mp same)
        generalize c :: pre ++ '-' :: d :: post = t at *
        rw [if_neg (List.cons_ne_nil d post)]
        change Reads r t (if Out r (scanBounds t).1 then some (-1,item)
          else if Out r (scanBounds t).2 then some (-1,item)
          else if (scanBounds t).1 > (scanBounds t).2 then
            (fill item (scanBounds t).1 r.last 1).bind fun p => (fill p.1 r.first (scanBounds t).2 1).map CronField.done
          else (fill item (scanBounds t).1 (scanBounds t).2 1).map CronField.done)
        by_cases lower : Out r (scanBounds t).1
        · rw [if_pos lower]
          exact readsRefused whole (refusedIff.mpr (.inr ⟨head,last,.inl lower⟩)) rfl
        · by_cases upper : Out r (scanBounds t).2
          · rw [if_neg lower,if_pos upper]
            exact readsRefused whole (refusedIff.mpr (.inr ⟨head,last,.inr upper⟩)) rfl
          · have no : ¬Refused r t := fun is => by
              rcases refusedIff.mp is with more | ⟨_,_,out⟩
              · exact many more
              · exact out.elim lower upper
            rw [if_neg lower,if_neg upper]
            unfold Out at lower upper
            refine readsAccepted whole no within ?_
            by_cases wraps : (scanBounds t).1 > (scanBounds t).2
            · rw [if_pos wraps]
              exact @fillWraps r item _ _ 1 whole (by omega) (by omega) (by omega) (fun _ => r.first) fun _ _ => by omega
            · rw [if_neg wraps]
              exact fillDone (by omega) (by omega) (by omega)

theorem stepReads (whole : Whole r item) (dash : '-' ∉ t) (slash : '/' ∈ t) :
    Reads r t (CronField.getListByStep t item r.first r.last) := by
  have length : item.length = r.last + 1 := whole
  have order := r.order
  have noRange : ¬('-' ∈ t ∧ '/' ∈ t) := fun both => dash both.1
  have refusedIff : Refused r t ↔ t.count '/' > 1 ∨
      if t.head? = some '*' then t[1]? ≠ some '/' ∨ atoi (t.drop 2) = 0 else Out r (scanned t) := by
    unfold Refused
    rw [if_neg noRange,if_neg dash,if_pos slash]
  have within : ¬Overruns r t := fun past => past.1 slash
  unfold CronField.getListByStep
  by_cases many : t.count '/' > 1
  · rw [if_pos many]
    exact readsRefused whole (refusedIff.mpr (.inl many)) rfl
  · rw [or_iff_right many] at refusedIff
    obtain ⟨pre,post,split,before,after⟩ := onceSplit slash many
    have found : strchr t '/' = some ('/' :: post) := split ▸ strchrFound before
    rw [if_neg many,found]
    by_cases star : t.head? = some '*'
    · rw [if_pos star] at refusedIff
      simp only [if_pos star]
      obtain ⟨pre',rfl⟩ : ∃ pre', pre = '*' :: pre' := by
        cases pre with
        | nil =>
          rw [split] at star
          exact absurd star (by simp)
        | cons c pre' =>
          rw [split] at star
          exact ⟨pre',by rw [Option.some.inj star]⟩
      have second : t[1]? = some '/' ↔ pre' = [] := by
        rw [← @headIff pre' post '/' fun mem => before (List.mem_cons_of_mem _ mem),split]
        cases pre' <;> rfl
      have short : ('/' :: post).length + 1 ≠ t.length ↔ pre' ≠ [] := by
        rw [split,← List.length_pos_iff]
        simp only [List.length_append,List.length_cons]
        omega
      by_cases apart : pre' = []
      · rw [if_neg (mt short.mp (not_not.mpr apart))]
        have low : 0 ≤ atoi (t.drop 2) := atoiUnsigned fun mem => dash (List.mem_of_mem_drop mem)
        by_cases zero : atoi (t.drop 2) = 0
        · rw [if_pos zero]
          exact readsRefused whole (refusedIff.mpr (.inr zero)) rfl
        · have no : ¬Refused r t := fun is => by
            rcases refusedIff.mp is with other | none'
            · exact other (second.mpr apart)
            · exact zero none'
          rw [if_neg zero]
          exact readsAccepted whole no within (fillDone (by omega) (by omega) (by omega))
      · rw [if_pos (short.mpr apart)]
        exact readsRefused whole (refusedIff.mpr (.inl (mt second.mp apart))) rfl
    · rw [if_neg star] at refusedIff
      simp only [if_neg star]
      suffices reads : ∀ b, scanned t = b →
          Reads r t (if Out r b then some (-1,item) else (put item b).map (0,·)) by
        cases read : scanInt t with
        | none => exact reads (-1) (by unfold scanned; rw [read]; rfl)
        | some found => exact reads found.1 (by unfold scanned; rw [read]; rfl)
      rintro b rfl
      by_cases out : Out r (scanned t)
      · rw [if_pos out]
        exact readsRefused whole (refusedIff.mpr out) rfl
      · rw [if_neg out]
        have no : ¬Refused r t := mt refusedIff.mp out
        unfold Out at out
        obtain ⟨item',set,length'⟩ := (@putIff item (scanned t) (by omega)).1 (by omega)
        exact readsAccepted whole no within ⟨item',by rw [set]; rfl,length'⟩

theorem strrchrSome {s : Str} {c : Char} (mem : c ∈ s) : ∃ p, strrchr s c = some p := by
  induction s with
  | nil => cases mem
  | cons d s ih =>
    unfold strrchr
    cases later : strrchr s c with
    | some t => exact ⟨t,rfl⟩
    | none =>
      rcases List.mem_cons.mp mem with rfl | inside
      · exact ⟨c :: s,if_pos rfl⟩
      · obtain ⟨t,found⟩ := ih inside
        rw [found] at later
        cases later

theorem rangeStepReads (whole : Whole r item) (dash : '-' ∈ t) (slash : '/' ∈ t) :
    Reads r t (CronField.getListByRangeAndStep t item r.first r.last r.count) := by
  have length : item.length = r.last + 1 := whole
  have order := r.order
  have refusedIff : Refused r t ↔ (t.count '-' > 1 ∨ t.count '/' > 1 ∨ t.head? = some '/') ∨
      stepOf t = 0 ∨ Out r (stepBounds r t).1 ∨ Out r (stepBounds r t).2 ∨ Out r (stepOf t) := by
    unfold Refused
    rw [if_pos ⟨dash,slash⟩]
  have within : ¬Overruns r t := fun past => past.1 slash
  unfold CronField.getListByRangeAndStep
  by_cases shape : t.count '-' > 1 ∨ t.count '/' > 1 ∨ t.head? = some '/'
  · refine readsRefused whole (refusedIff.mpr (.inl shape)) ?_
    rcases shape with dashes | slashes | first
    · rw [if_pos dashes]
    · rw [if_pos slashes,ite_self]
    · rw [if_pos first,ite_self,ite_self]
  · rw [or_iff_right shape] at refusedIff
    obtain ⟨dashes,slashes,first⟩ : ¬t.count '-' > 1 ∧ ¬t.count '/' > 1 ∧ t.head? ≠ some '/' :=
      ⟨fun h => shape (.inl h),fun h => shape (.inr (.inl h)),fun h => shape (.inr (.inr h))⟩
    obtain ⟨p1,found1⟩ := strrchrSome dash
    obtain ⟨p2,found2⟩ := strrchrSome slash
    have bounds : (if p1.length ≠ t.length then
        (atoi t,if (p1.drop 1).head? = some '/' then (r.last : Int) else atoi (p1.drop 1))
      else if (p1.drop 1).head? = some '/' then ((r.first : Int),(r.last : Int)) else (-1,atoi (p1.drop 1)))
        = stepBounds r t := by
      unfold stepBounds
      rw [found1]
      rfl
    have step : (if p2.drop 1 = [] then 1 else atoi (p2.drop 1)) = stepOf t := by
      unfold stepOf
      rw [found2]
      rfl
    rw [if_neg dashes,if_neg slashes,if_neg first,found1,found2]
    simp only [bounds,step]
    change Reads r t (if stepOf t = 0 then some (-1,item)
      else if Out r (stepBounds r t).1 then some (-1,item)
      else if Out r (stepBounds r t).2 then some (-1,item)
      else if Out r (stepOf t) then some (-1,item)
      else if (stepBounds r t).1 > (stepBounds r t).2 then
        (fill item (stepBounds r t).1 r.last (stepOf t)).bind fun p =>
          (fill p.1 (p.2.tmod r.count + r.first) (stepBounds r t).2 (stepOf t)).map CronField.done
      else (fill item (stepBounds r t).1 (stepBounds r t).2 (stepOf t)).map CronField.done)
    by_cases refused : stepOf t = 0 ∨ Out r (stepBounds r t).1 ∨ Out r (stepBounds r t).2 ∨ Out r (stepOf t)
    · refine readsRefused whole (refusedIff.mpr refused) ?_
      rcases refused with zero | lower | upper | far
      · rw [if_pos zero]
      · rw [if_pos lower,ite_self]
      · rw [if_pos upper,ite_self,ite_self]
      · rw [if_pos far,ite_self,ite_self,ite_self]
    · have no : ¬Refused r t := mt refusedIff.mp refused
      obtain ⟨zero,lower,upper,far⟩ : stepOf t ≠ 0 ∧ ¬Out r (stepBounds r t).1 ∧ ¬Out r (stepBounds r t).2 ∧
          ¬Out r (stepOf t) :=
        ⟨fun h => refused (.inl h),fun h => refused (.inr (.inl h)),fun h => refused (.inr (.inr (.inl h))),
          fun h => refused (.inr (.inr (.inr h)))⟩
      rw [if_neg zero,if_neg lower,if_neg upper,if_neg far]
      unfold Out at lower upper far
      refine readsAccepted whole no within ?_
      by_cases wraps : (stepBounds r t).1 > (stepBounds r t).2
      · rw [if_pos wraps]
        refine @fillWraps r item _ _ _ whole (by omega) (by omega) (by omega)
          (fun i => i.tmod r.count + r.first) fun i nonneg => ?_
        have reduced := Int.tmod_nonneg (r.count : Int) nonneg
        omega
      · rw [if_neg wraps]
        exact fillDone (by omega) (by omega) (by omega)

/- Each item goes to one of the four. -/
theorem tokenReads (whole : Whole r item) : Reads r t (getListByToken t item r.first r.last r.count) := by
  unfold getListByToken
  by_cases dash : '-' ∈ t
  · by_cases slash : '/' ∈ t
    · rw [if_pos ⟨dash,slash⟩]
      exact rangeStepReads whole dash slash
    · rw [if_neg fun both => slash both.2,if_pos dash]
      exact rangeReads whole dash slash
  · rw [if_neg fun both => dash both.1,if_neg dash]
    by_cases slash : '/' ∈ t
    · rw [if_pos slash]
      exact stepReads whole dash slash
    · rw [if_neg slash]
      exact itemReads whole dash slash

end Recognisers

def Rejected (r : Range) (t : Str) : Prop := Computes r t ∧ Refused r t
def Accepted (r : Range) (t : Str) : Prop := Computes r t ∧ ¬Refused r t ∧ ¬Overruns r t

instance (r t) : Decidable (Rejected r t) := by unfold Rejected; infer_instance
instance (r t) : Decidable (Accepted r t) := by unfold Accepted; infer_instance

/- All items are accepted, or all those before the first that is rejected. -/
def Accepts (items : List (Range × Str)) : Prop := ∀ x ∈ items, Accepted x.1 x.2

def Rejects (items : List (Range × Str)) : Prop :=
  ∃ before x after, items = before ++ x :: after ∧ Accepts before ∧ Rejected x.1 x.2

/- The items of one field. -/
def tokens (field : Str) : List Str := if ',' ∈ field then strtok field ',' else [field]

def itemsOf (r : Range) (field : Str) : List (Range × Str) := (tokens field).map (r,·)

section Lists
variable {r : Range} {t field : Str} {item : Item} {x : Range × Str} {l l' : List (Range × Str)}

theorem notBoth (rejected : Rejected x.1 x.2) : ¬Accepted x.1 x.2 := fun accepted => accepted.2.1 rejected.2

theorem acceptsCons : Accepts (x :: l) ↔ Accepted x.1 x.2 ∧ Accepts l := List.forall_mem_cons

theorem acceptsAppend : Accepts (l ++ l') ↔ Accepts l ∧ Accepts l' := List.forall_mem_append

theorem rejectsNil : ¬Rejects [] := by
  rintro ⟨before,x,after,split,_⟩
  exact List.append_ne_nil_of_right_ne_nil before (List.cons_ne_nil x after) split.symm

theorem rejectsCons : Rejects (x :: l) ↔ Rejected x.1 x.2 ∨ Accepted x.1 x.2 ∧ Rejects l := by
  constructor
  · rintro ⟨before,y,after,split,accepts,rejected⟩
    cases before with
    | nil =>
      cases split
      exact .inl rejected
    | cons z before =>
      cases split
      exact .inr ⟨(acceptsCons.mp accepts).1,before,y,after,rfl,(acceptsCons.mp accepts).2,rejected⟩
  · rintro (rejected | ⟨accepted,before,y,after,rfl,accepts,rejected⟩)
    · exact ⟨[],x,l,rfl,by simp [Accepts],rejected⟩
    · exact ⟨x :: before,y,after,rfl,acceptsCons.mpr ⟨accepted,accepts⟩,rejected⟩

theorem rejectsAppend : Rejects (l ++ l') ↔ Rejects l ∨ Accepts l ∧ Rejects l' := by
  induction l with
  | nil => simp [rejectsNil,Accepts]
  | cons x l ih =>
    rw [List.cons_append,rejectsCons,ih,rejectsCons,acceptsCons]
    tauto

theorem rejectsNotAccepts (rejects : Rejects l) : ¬Accepts l := by
  obtain ⟨before,x,after,rfl,_,rejected⟩ := rejects
  exact fun accepts => notBoth rejected (accepts x (by simp))

theorem readItemReads (whole : Whole r item) :
    Outcome (Rejected r t) (Accepted r t) (Whole r) (readItem r t item) := by
  unfold readItem
  by_cases computes : Computes r t
  · rw [if_pos computes]
    rcases tokenReads (t := t) whole with ⟨is,item',gives,keeps⟩ | ⟨is,item',gives,keeps⟩ | ⟨no,no',gives⟩
    · exact .refuses ⟨computes,is⟩ item' gives keeps
    · exact .accepts ⟨computes,is⟩ item' gives keeps
    · exact .faults (fun both => no both.2) (fun both => no' both.2) gives
  · rw [if_neg computes]
    exact .faults (fun both => computes both.1) (fun both => computes both.1) rfl

/- One reading after another, which is made where the first returned 0. -/
theorem outcomeThen {β γ : Type} {refused accepted refused' accepted' : Prop} {kept : β → Prop} {kept' : γ → Prop}
    {first : Option (Int × β)} {rest : Int × β → Option (Int × γ)} (h : Outcome refused accepted kept first)
    (apart : accepted → ¬refused) (stops : ∀ b, kept b → ∃ c, rest (-1,b) = some (-1,c) ∧ kept' c)
    (h' : ∀ b, kept b → Outcome refused' accepted' kept' (rest (0,b))) :
    Outcome (refused ∨ accepted ∧ refused') (accepted ∧ accepted') kept' (first.bind rest) := by
  rcases h with ⟨is,b,gives,kept_⟩ | ⟨is,b,gives,kept_⟩ | ⟨no,no',gives⟩
  · obtain ⟨c,answers,keeps⟩ := stops b kept_
    exact .refuses (.inl is) c (by rw [gives]; exact answers) keeps
  · rw [gives,Option.bind_some]
    rcases h' b kept_ with ⟨is',c,gives',kept_'⟩ | ⟨is',c,gives',kept_'⟩ | ⟨no,no',gives'⟩
    · exact .refuses (.inr ⟨is,is'⟩) c gives' kept_'
    · exact .accepts ⟨is,is'⟩ c gives' kept_'
    · exact .faults (fun either => either.elim (apart is) fun both => no both.2) (fun both => no' both.2) gives'
  · exact .faults (fun either => either.elim no fun both => no' both.1) (fun both => no' both.1) (by rw [gives]; rfl)

theorem outcomeCongr {β : Type} {refused accepted refused' accepted' : Prop} {kept : β → Prop}
    {result : Option (Int × β)} (h : Outcome refused accepted kept result) (same : refused ↔ refused')
    (same' : accepted ↔ accepted') : Outcome refused' accepted' kept result := by
  rw [← same,← same']
  exact h

theorem readItemsReads {ts : List Str} (whole : Whole r item) :
    Outcome (Rejects (ts.map (r,·))) (Accepts (ts.map (r,·))) (Whole r) (readItems r ts item) := by
  induction ts generalizing item with
  | nil => exact .accepts (by simp [Accepts]) item rfl whole
  | cons t ts ih =>
    rw [List.map_cons,rejectsCons,acceptsCons]
    exact outcomeThen (readItemReads whole) (fun accepted rejected => accepted.2.1 rejected.2)
      (fun item' keeps => ⟨item',rfl,keeps⟩) fun _ keeps => ih keeps

theorem fieldReads (whole : Whole r item) :
    Outcome (Rejects (itemsOf r field)) (Accepts (itemsOf r field)) (Whole r) (parseCronEntryI r field item) := by
  have same : parseCronEntryI r field item = readItems r (tokens field) item := by
    unfold parseCronEntryI tokens
    split
    · rfl
    · cases read : readItem r field item with
      | none => simp [readItems,read]
      | some found =>
        obtain ⟨result,item'⟩ := found
        by_cases zero : result = 0
        · simp [readItems,read,zero]
        · simp [readItems,read,zero]
  rw [same]
  exact readItemsReads whole

end Lists

end CuteNdk.CronText
