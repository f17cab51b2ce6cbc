import CuteNdk.CronField
import Mathlib.Tactic.Ring

/-! What the items of a crontab field denote, and when the parser gives exactly
that. An item is a base, "*", "n" or a range with either bound left open, and an
optional step, which is the whole of the documented grammar. -/
namespace CuteNdk.CronField
open Lib.CString

structure Numeral where
  text : Str
  digits : Digits text

def Numeral.value (n : Numeral) : Nat := decimal n.text

inductive Base where
  | star
  | number (n : Numeral)
  | span (lo hi : Option Numeral)

structure CronItem where
  base : Base
  step : Option Numeral

def bound (n : Option Numeral) : Str := match n with
  | none => []
  | some n => n.text

def Base.render : Base → Str
  | .star => ['*']
  | .number n => n.text
  | .span lo hi => bound lo ++ '-' :: bound hi

def CronItem.render (i : CronItem) : Str :=
  i.base.render ++ match i.step with
    | none => []
    | some s => '/' :: s.text

def render (items : List CronItem) : Str := [','].intercalate (items.map CronItem.render)

/- The values from a on to b, through last and first when a is past b. -/
def walk (f : Field) (a b : Nat) : List Nat :=
  if a ≤ b then List.range' a (b + 1 - a)
  else List.range' a (f.last + 1 - a) ++ List.range' f.first (b + 1 - f.first)

def missing (n : Option Numeral) (otherwise : Nat) : Nat := match n with
  | none => otherwise
  | some n => n.value

def Base.path (f : Field) : Base → List Nat
  | .star => walk f f.first f.last
  | .number n => [n.value]
  | .span lo hi => walk f (missing lo f.first) (missing hi f.last)

/- Every s-th value of the base's range, counted from its start. -/
def Denotes (f : Field) (i : CronItem) (v : Nat) : Prop :=
  ∃ k, (i.base.path f)[k * missing i.step 1]? = some v

def InField (f : Field) (n : Numeral) : Prop := f.first ≤ n.value ∧ n.value ≤ f.last
instance (f n) : Decidable (InField f n) := by unfold InField; infer_instance

structure WellFormed (f : Field) (i : CronItem) : Prop where
  number : ∀ n, i.base = .number n → InField f n
  lo : ∀ a hi, i.base = .span (some a) hi → InField f a
  hi : ∀ lo b, i.base = .span lo (some b) → InField f b
  step : ∀ s, i.step = some s → 1 ≤ s.value ∧ InField f s

def parse (f : Field) (entry : Str) (item : Item) : Option (Int × Item) :=
  parseCronEntryI entry item f.first f.last f.count

/- The parser returns 0 and sets exactly the union of what the items denote. -/
def Meets (f : Field) (items : List CronItem) : Prop :=
  ∃ item, parse f (render items) (List.replicate f.count false) = some (0,item) ∧
    item.length = f.count ∧
    ∀ v, item[v]? = some true ↔ ∃ i ∈ items, Denotes f i v

/- "-b/s", whose missing lower bound is never filled in. -/
def CronItem.uptoStep (i : CronItem) : Prop :=
  ∃ b s, i.base = .span none (some b) ∧ i.step = some s

/- "-", whose missing upper bound reads as 0. -/
def CronItem.dash (i : CronItem) : Prop := i.base = .span none none ∧ i.step = none

/- The values the code sets for an item it accepts. -/
def Sets (f : Field) (i : CronItem) (v : Nat) : Prop :=
  (i.dash ∧ f.first = 0 ∧ v = 0) ∨ (¬ i.dash ∧ Denotes f i v)

def marked (item : Item) (v : Nat) : Prop := item[v]? = some true

theorem putMarks (item : Item) {i : Int} (range : 0 ≤ i ∧ i < item.length) :
    ∃ item', put item i = some item' ∧ item'.length = item.length ∧
      ∀ v : Nat, marked item' v ↔ marked item v ∨ (v : Int) = i := by
  refine ⟨item.set i.toNat true,if_pos range,by simp,fun v => ?_⟩
  unfold marked
  by_cases same : (v : Int) = i
  · have index : i.toNat = v := by omega
    have inside : v < item.length := by omega
    simp [index,inside,same]
  · have index : i.toNat ≠ v := by omega
    simp [List.getElem?_set_ne index,same]

theorem fillFromMarks {last step : Int} (positive : 1 ≤ step) (fuel : Nat) {i : Int} (item : Item)
    (low : 0 ≤ i) (high : last < item.length) (enough : (last + 1 - i).toNat < fuel) :
    ∃ item' n, fillFrom last step fuel i item = some (item',i + (n : Nat) * step) ∧
      item'.length = item.length ∧ last < i + n * step ∧ (∀ k < n, i + (k : Nat) * step ≤ last) ∧
      ∀ v : Nat, marked item' v ↔ marked item v ∨ ∃ k < n, (v : Int) = i + (k : Nat) * step := by
  induction fuel generalizing i item with
  | zero => omega
  | succ fuel ih =>
    by_cases more : i ≤ last
    · obtain ⟨item₁,set,length₁,marks₁⟩ := putMarks item (i := i) ⟨low,by omega⟩
      obtain ⟨item',n,fills,length,past,inside,marks⟩ :=
        ih (i := i + step) item₁ (by omega) (by omega) (by omega)
      have shift : ∀ k : Nat, i + step + (k : Int) * step = i + ((k + 1 : Nat) : Int) * step := by
        intro k; push_cast; ring
      refine ⟨item',n + 1,?_,by omega,?_,?_,fun v => ?_⟩
      · simp only [fillFrom,if_pos more,set,bind,Option.bind,fills,shift]
      · rw [← shift]; exact past
      · intro k hk
        cases k with
        | zero => simpa using more
        | succ k => rw [← shift]; exact inside k (by omega)
      · rw [marks,marks₁,or_assoc]
        refine or_congr_right ⟨?_,?_⟩
        · rintro (here | ⟨k,hk,eq⟩)
          · exact ⟨0,by omega,by simpa using here⟩
          · exact ⟨k + 1,by omega,by rw [← shift]; exact eq⟩
        · rintro ⟨k,hk,eq⟩
          cases k with
          | zero => exact .inl (by simpa using eq)
          | succ k => exact .inr ⟨k,by omega,by rw [shift]; exact eq⟩
    · refine ⟨item,0,by simp [fillFrom,more],rfl,by omega,by simp,by simp⟩

/- A loop from a to last by step sets a, a + step, ... up to last. -/
theorem fillMarks (item : Item) (a last : Nat) {step : Nat} (positive : 1 ≤ step) (high : last < item.length) :
    ∃ item' n, fill item a last step = some (item',((a + n * step : Nat) : Int)) ∧
      item'.length = item.length ∧ last < a + n * step ∧ (∀ k < n, a + k * step ≤ last) ∧
      ∀ v, marked item' v ↔ marked item v ∨ ∃ k < n, v = a + k * step := by
  obtain ⟨item',n,fills,length,past,inside,marks⟩ :=
    fillFromMarks (show 1 ≤ (step : Int) by omega) (((last : Int) - a).toNat + 2) (i := (a : Int)) item
      (by omega) (show (last : Int) < item.length by omega) (by omega)
  refine ⟨item',n,?_,length,by exact_mod_cast past,fun k hk => by exact_mod_cast inside k hk,fun v => ?_⟩
  · unfold fill
    rw [fills]
    push_cast
    rfl
  · rw [marks]
    refine or_congr_right (exists_congr fun k => and_congr_right fun _ => ?_)
    exact_mod_cast Iff.rfl

theorem uptoIff {a last step n v : Nat} (past : last < a + n * step) (inside : ∀ k < n, a + k * step ≤ last) :
    (∃ k < n, v = a + k * step) ↔ ∃ k, v = a + k * step ∧ v ≤ last := by
  constructor
  · rintro ⟨k,hk,rfl⟩
    exact ⟨k,rfl,inside k hk⟩
  · rintro ⟨k,rfl,low⟩
    refine ⟨k,?_,rfl⟩
    by_contra far
    have : n * step ≤ k * step := Nat.mul_le_mul_right step (by omega)
    omega

/- What the values of a walk taken every s-th look like as arithmetic. -/
theorem walkUp {f : Field} {a b : Nat} (up : a ≤ b) (s v : Nat) :
    (∃ k, (walk f a b)[k * s]? = some v) ↔ ∃ k, v = a + k * s ∧ v ≤ b := by
  simp only [walk,if_pos up,List.getElem?_eq_some_iff,List.length_range',List.getElem_range',one_mul]
  refine exists_congr fun k => ⟨?_,?_⟩
  · rintro ⟨short,rfl⟩
    exact ⟨rfl,by omega⟩
  · rintro ⟨rfl,low⟩
    exact ⟨by omega,rfl⟩

theorem walkWrap {f : Field} {a b n s : Nat} (wrap : b < a) (high : a ≤ f.last)
    (past : f.last < a + n * s) (inside : ∀ k < n, a + k * s ≤ f.last) (v : Nat) :
    (∃ k, (walk f a b)[k * s]? = some v) ↔
      (∃ k < n, v = a + k * s) ∨
      ∃ k, v = f.first + (a + n * s - (f.last + 1)) + k * s ∧ v ≤ b := by
  have down : ¬ a ≤ b := by omega
  simp only [walk,if_neg down]
  constructor
  · rintro ⟨k,at_⟩
    by_cases hk : k < n
    · have low := inside k hk
      rw [List.getElem?_append_left (by simp; omega)] at at_
      simp only [List.getElem?_eq_some_iff,List.getElem_range',one_mul] at at_
      exact .inl ⟨k,hk,at_.2.symm⟩
    · have far : n * s ≤ k * s := Nat.mul_le_mul_right s (by omega)
      have split : k * s = n * s + (k - n) * s := by
        rw [← Nat.add_mul]; congr 1; omega
      rw [List.getElem?_append_right (by simp; omega)] at at_
      simp only [List.getElem?_eq_some_iff,List.length_range',List.getElem_range',one_mul] at at_
      obtain ⟨short,rfl⟩ := at_
      exact .inr ⟨k - n,by omega,by omega⟩
  · rintro (⟨k,hk,rfl⟩ | ⟨k,rfl,low⟩)
    · have low := inside k hk
      refine ⟨k,?_⟩
      rw [List.getElem?_append_left (by simp; omega)]
      simp only [List.getElem?_eq_some_iff,List.length_range',List.getElem_range',one_mul]
      exact ⟨by omega,trivial⟩
    · refine ⟨n + k,?_⟩
      rw [Nat.add_mul,List.getElem?_append_right (by simp; omega)]
      simp only [List.getElem?_eq_some_iff,List.length_range',List.getElem_range',one_mul]
      exact ⟨by omega,by omega⟩

theorem fieldCount (f : Field) : f.count = f.last + 1 ∧ f.first ≤ 1 ∧ f.first < f.last := by
  cases f <;> decide

/- A recogniser's result: it returns 0 and adds exactly a set of values. -/
def Adds (r : Option (Int × Item)) (item : Item) (values : Nat → Prop) : Prop :=
  ∃ item', r = some (0,item') ∧ item'.length = item.length ∧
    ∀ v, marked item' v ↔ marked item v ∨ values v

theorem addsCongr {r : Option (Int × Item)} {item : Item} {p q : Nat → Prop} (h : Adds r item p)
    (same : ∀ v, p v ↔ q v) : Adds r item q := by
  obtain ⟨item',result,length,marks⟩ := h
  exact ⟨item',result,length,fun v => (marks v).trans (or_congr_right (same v))⟩

/- Every s-th value of a walk. -/
def Every (f : Field) (a b s v : Nat) : Prop := ∃ k, (walk f a b)[k * s]? = some v

theorem putAdds {item : Item} {n : Nat} (inside : n < item.length) :
    Adds ((put item n).map (0,·)) item (fun v => v = n) := by
  obtain ⟨item',set,length,marks⟩ := putMarks item (i := (n : Int)) (by omega)
  refine ⟨item',by rw [set]; rfl,length,fun v => ?_⟩
  rw [marks]
  exact or_congr_right Int.natCast_inj

theorem fillAdds {f : Field} {item : Item} {a b s : Nat} (positive : 1 ≤ s) (up : a ≤ b)
    (inside : b < item.length) : Adds ((fill item a b s).map done) item (Every f a b s) := by
  obtain ⟨item',n,fills,length,past,low,marks⟩ := fillMarks item a b positive inside
  refine ⟨item',by rw [fills]; rfl,length,fun v => ?_⟩
  rw [marks,uptoIff past low]
  exact or_congr_right (walkUp up s v).symm

/- Through the last value and on from the first, as far past it as the first
loop overran the last. -/
theorem wrapAdds {f : Field} (item : Item) {a b s : Nat} (positive : 1 ≤ s) (wrap : b < a)
    (high : a ≤ f.last) (whole : item.length = f.count) :
    ∃ item₁ n, fill item a f.last s = some (item₁,((n : Nat) : Int)) ∧
      f.last < n ∧ n ≤ f.last + s ∧
      ∀ start : Int, start = f.first + (n - (f.last + 1)) →
        Adds ((fill item₁ start b s).map done) item (Every f a b s) := by
  have count := fieldCount f
  obtain ⟨item₁,n,fills₁,length₁,past₁,low₁,marks₁⟩ :=
    fillMarks item a f.last positive (by omega)
  refine ⟨item₁,a + n * s,fills₁,past₁,?_,?_⟩
  · cases n with
    | zero => omega
    | succ n =>
      have before := low₁ n (by omega)
      rw [Nat.add_mul]
      omega
  · intro start begins
    have nat : start = ((f.first + (a + n * s - (f.last + 1)) : Nat) : Int) := by omega
    obtain ⟨item₂,m,fills₂,length₂,past₂,low₂,marks₂⟩ :=
      fillMarks item₁ (f.first + (a + n * s - (f.last + 1))) b positive (by omega)
    refine ⟨item₂,by rw [nat,fills₂]; rfl,by omega,fun v => ?_⟩
    rw [marks₂,marks₁,uptoIff past₂ low₂,or_assoc]
    exact or_congr_right (walkWrap wrap high past₁ low₁ v).symm

theorem Numeral.fresh (n : Numeral) {c : Char} (other : c.isDigit = false) : c ∉ n.text := by
  intro mem
  have digit := n.digits.2 c mem
  rw [other] at digit
  contradiction

theorem boundFresh (n : Option Numeral) {c : Char} (other : c.isDigit = false) : c ∉ bound n := by
  cases n with
  | none => exact List.not_mem_nil
  | some n => exact n.fresh other

theorem Numeral.head (n : Numeral) : ∃ c rest, n.text = c :: rest ∧ c.isDigit = true := by
  obtain ⟨some_,digits⟩ := n.digits
  cases text : n.text with
  | nil => exact absurd text some_
  | cons c rest => exact ⟨c,rest,rfl,digits c (text ▸ List.mem_cons_self)⟩

theorem Numeral.scan (n : Numeral) {rest : Str} (stop : NoDigit rest) :
    scanInt (n.text ++ rest) = some ((n.value : Int),rest) := scanDigits n.digits stop

theorem Numeral.atoi (n : Numeral) {rest : Str} (stop : NoDigit rest) :
    atoi (n.text ++ rest) = n.value := atoiDigits n.digits stop

theorem noDigitNil : NoDigit [] := by simp [NoDigit]

theorem Numeral.atoiAll (n : Numeral) : Lib.CString.atoi n.text = n.value := by
  have scan := n.atoi noDigitNil
  rwa [List.append_nil] at scan

theorem noDigitDash (rest : Str) : NoDigit ('-' :: rest) := by
  intro c hc
  cases Option.some.inj hc
  decide

theorem noDigitSlash (rest : Str) : NoDigit ('/' :: rest) := by
  intro c hc
  cases Option.some.inj hc
  decide

theorem itemStar {f : Field} {item : Item} (whole : item.length = f.count) :
    Adds (getListByItem ['*'] item f.first f.last) item (Every f f.first f.last 1) := by
  have count := fieldCount f
  exact fillAdds (s := 1) (by omega) (by omega) (by omega)

theorem itemNumber {f : Field} {item : Item} (whole : item.length = f.count) {n : Numeral}
    (inside : InField f n) :
    Adds (getListByItem n.text item f.first f.last) item (fun v => v = n.value) := by
  have count := fieldCount f
  have value := n.atoiAll
  obtain ⟨c,rest,text,digit⟩ := n.head
  have star : c ≠ '*' := by
    rintro rfl
    exact absurd digit (by decide)
  rw [text] at value ⊢
  have picked : getListByItem (c :: rest) item f.first f.last = (put item (n.value : Int)).map (0,·) := by
    unfold getListByItem
    split
    · rename_i same
      cases same
      contradiction
    · rename_i same
      cases same
      rw [if_pos digit,value]
    · contradiction
  rw [picked]
  exact putAdds (by unfold InField at inside; omega)

theorem countOne {pre post : Str} {c : Char} (before : c ∉ pre) (after : c ∉ post) :
    (pre ++ c :: post).count c = 1 := by
  rw [List.count_append,List.count_eq_zero_of_not_mem before,List.count_cons_self,
    List.count_eq_zero_of_not_mem after]

/- What getListByRange sets: a lone dash loops up to atoi of nothing. -/
theorem rangeSpan {f : Field} {item : Item} (whole : item.length = f.count) {lo hi : Option Numeral}
    (low : ∀ a, lo = some a → InField f a) (high : ∀ b, hi = some b → InField f b) :
    Adds (getListByRange (bound lo ++ '-' :: bound hi) item f.first f.last) item (fun v =>
      if lo = none ∧ hi = none then f.first = 0 ∧ v = 0
      else Every f (missing lo f.first) (missing hi f.last) 1 v) := by
  have count := fieldCount f
  have one : ¬ (bound lo ++ '-' :: bound hi).count '-' > 1 := by
    rw [countOne (boundFresh lo (by decide)) (boundFresh hi (by decide))]
    omega
  have found : strchr (bound lo ++ '-' :: bound hi) '-' = some ('-' :: bound hi) :=
    strchrFound (boundFresh lo (by decide))
  unfold getListByRange
  rw [if_neg one,found]
  cases lo with
  | none =>
    cases hi with
    | none =>
      obtain ⟨item',n,fills,length,past,below,marks⟩ :=
        fillMarks item f.first 0 (le_refl 1) (by omega)
      have atoiEmpty : atoi [] = 0 := rfl
      refine ⟨item',?_,length,fun v => ?_⟩
      · simp only [bound,List.nil_append,List.drop_one,List.tail_cons,atoiEmpty,if_true]
        rw [show (0 : Int) = ((0 : Nat) : Int) from rfl,show (1 : Int) = ((1 : Nat) : Int) from rfl,fills]
        rfl
      · rw [marks,uptoIff past below]
        refine or_congr_right ?_
        simp only [and_self,if_true]
        constructor
        · rintro ⟨k,rfl,zero⟩
          omega
        · rintro ⟨zero,rfl⟩
          exact ⟨0,by omega,by omega⟩
    | some b =>
      have inside := high b rfl
      unfold InField at inside
      simp only [bound,List.nil_append,List.drop_one,List.tail_cons,if_true,b.atoiAll]
      refine addsCongr (fillAdds (f := f) (s := 1) (by omega) inside.1 (by omega)) fun v => ?_
      simp [missing]
  | some a =>
    have inside := low a rfl
    unfold InField at inside
    have longer : ('-' :: bound hi).length ≠ (bound (some a) ++ '-' :: bound hi).length := by
      have some_ := List.length_pos_of_ne_nil a.digits.1
      simp only [bound,List.length_append]
      omega
    simp only [if_neg longer]
    cases hi with
    | none =>
      simp only [bound,List.drop_one,List.tail_cons,if_true,a.atoi (noDigitDash [])]
      refine addsCongr (fillAdds (f := f) (s := 1) (by omega) inside.2 (by omega)) fun v => ?_
      simp [missing]
    | some b =>
      have inside' := high b rfl
      unfold InField at inside'
      have scan : scanInt b.text = some ((b.value : Int),[]) := by
        simpa using b.scan noDigitNil
      simp only [bound,List.drop_one,List.tail_cons,if_neg b.digits.1,a.scan (noDigitDash b.text),scan]
      rw [if_neg (by omega),if_neg (by omega)]
      by_cases wrap : b.value < a.value
      · obtain ⟨item₁,n,fills₁,past,near,rest⟩ :=
          wrapAdds (f := f) item (le_refl 1) wrap inside.2 whole
        rw [if_pos (by omega)]
        refine addsCongr (p := Every f a.value b.value 1) ?_ fun v => by simp [missing]
        simp only [Nat.cast_one] at fills₁ rest
        simp only [fills₁,bind,Option.bind]
        exact rest f.first (by omega)
      · rw [if_neg (by omega)]
        refine addsCongr (fillAdds (f := f) (s := 1) (by omega) (Nat.le_of_not_lt wrap) (by omega)) fun v => ?_
        simp [missing]

/- The bounds getListByRangeAndStep reads: a lower bound is missing only where
the upper one is too. -/
def readBounds (f : Field) : Option Numeral → Option Numeral → Int × Int
  | some a, hi => (a.value,missing hi f.last)
  | none, none => (f.first,f.last)
  | none, some b => (-1,b.value)

theorem rangeStepReads {f : Field} {item : Item} {lo hi : Option Numeral} {s : Numeral} {b e : Int}
    (read : readBounds f lo hi = (b,e)) :
    getListByRangeAndStep (bound lo ++ '-' :: bound hi ++ '/' :: s.text) item f.first f.last f.count =
      if (s.value : Int) = 0 then some (-1,item)
      else if b > f.last ∨ b < f.first then some (-1,item)
      else if e > f.last ∨ e < f.first then some (-1,item)
      else if (s.value : Int) > f.last ∨ (s.value : Int) < f.first then some (-1,item)
      else if b > e then do
        let (item,i) ← fill item b f.last s.value
        (fill item (i.tmod f.count + f.first) e s.value).map done
      else (fill item b e s.value).map done := by
  have dash (n : Option Numeral) : '-' ∉ bound n := boundFresh n (by decide)
  have slash (n : Option Numeral) : '/' ∉ bound n := boundFresh n (by decide)
  have dashes : ¬ (bound lo ++ '-' :: bound hi ++ '/' :: s.text).count '-' > 1 := by
    have after : '-' ∉ bound hi ++ '/' :: s.text := by simp [dash hi,s.fresh (c := '-') (by decide)]
    rw [List.append_assoc,List.cons_append,countOne (dash lo) after]
    omega
  have slashes : ¬ (bound lo ++ '-' :: bound hi ++ '/' :: s.text).count '/' > 1 := by
    have before : '/' ∉ bound lo ++ '-' :: bound hi := by simp [slash lo,slash hi]
    rw [countOne before (s.fresh (by decide))]
    omega
  have head : (bound lo ++ '-' :: bound hi ++ '/' :: s.text).head? ≠ some '/' := by
    cases lo with
    | none => simp [bound]
    | some a =>
      obtain ⟨c,rest,text,digit⟩ := a.head
      simp only [bound,text,List.cons_append,List.head?_cons,ne_eq,Option.some.injEq]
      rintro rfl
      exact absurd digit (by decide)
  have p1 : strrchr (bound lo ++ '-' :: bound hi ++ '/' :: s.text) '-' =
      some ('-' :: (bound hi ++ '/' :: s.text)) := by
    rw [List.append_assoc,List.cons_append]
    exact strrchrFound (by simp [dash hi,s.fresh (c := '-') (by decide)])
  have p2 : strrchr (bound lo ++ '-' :: bound hi ++ '/' :: s.text) '/' = some ('/' :: s.text) :=
    strrchrFound (s.fresh (by decide))
  have upper (b : Numeral) : (b.text ++ '/' :: s.text).head? ≠ some '/' := by
    obtain ⟨c,rest,text,digit⟩ := b.head
    simp only [text,List.cons_append,List.head?_cons,ne_eq,Option.some.injEq]
    rintro rfl
    exact absurd digit (by decide)
  unfold getListByRangeAndStep
  rw [if_neg dashes,if_neg slashes,if_neg head,p1,p2]
  simp only [List.drop_one,List.tail_cons,if_neg s.digits.1,s.atoiAll]
  cases lo with
  | none =>
    cases hi with
    | none =>
      cases read
      simp [bound]
    | some b =>
      cases read
      simp only [bound,List.nil_append,List.cons_append,ne_eq,not_true,if_false,if_neg (upper b),
        b.atoi (noDigitSlash s.text)]
  | some a =>
    have longer : ('-' :: (bound hi ++ '/' :: s.text)).length ≠
        (bound (some a) ++ '-' :: bound hi ++ '/' :: s.text).length := by
      have some_ := List.length_pos_of_ne_nil a.digits.1
      simp only [bound,List.length_append,List.length_cons]
      omega
    have first : atoi (bound (some a) ++ '-' :: bound hi ++ '/' :: s.text) = a.value := by
      rw [List.append_assoc,List.cons_append]
      exact a.atoi (noDigitDash _)
    rw [if_pos longer,first]
    cases hi with
    | none =>
      cases read
      simp [bound,missing]
    | some b =>
      cases read
      simp only [bound,missing,if_neg (upper b),b.atoi (noDigitSlash s.text)]
      rfl

/- -b/s is refused: its lower bound stays -1. -/
theorem rangeUptoStep {f : Field} {item : Item} {b s : Numeral} (step : 1 ≤ s.value) :
    getListByRangeAndStep (bound none ++ '-' :: bound (some b) ++ '/' :: s.text) item f.first f.last f.count =
      some (-1,item) := by
  rw [rangeStepReads (b := -1) (e := b.value) rfl,if_neg (by omega),if_pos (by omega)]

theorem rangeStep {f : Field} {item : Item} (whole : item.length = f.count) {lo hi : Option Numeral}
    {s : Numeral} (low : ∀ a, lo = some a → InField f a) (high : ∀ b, hi = some b → InField f b)
    (positive : 1 ≤ s.value) (step : InField f s) (bounded : lo = none → hi = none) :
    Adds (getListByRangeAndStep (bound lo ++ '-' :: bound hi ++ '/' :: s.text) item f.first f.last f.count)
      item (Every f (missing lo f.first) (missing hi f.last) s.value) := by
  have count := fieldCount f
  have bounds : readBounds f lo hi = (((missing lo f.first : Nat) : Int),((missing hi f.last : Nat) : Int)) := by
    cases lo with
    | none => rw [bounded rfl]; rfl
    | some a => rfl
  have lower : f.first ≤ missing lo f.first ∧ missing lo f.first ≤ f.last := by
    cases lo with
    | none => simp only [missing]; omega
    | some a => exact low a rfl
  have upper : f.first ≤ missing hi f.last ∧ missing hi f.last ≤ f.last := by
    cases hi with
    | none => simp only [missing]; omega
    | some b => exact high b rfl
  unfold InField at step
  rw [rangeStepReads bounds,if_neg (by omega),if_neg (by omega),if_neg (by omega),if_neg (by omega)]
  by_cases wrap : missing hi f.last < missing lo f.first
  · obtain ⟨item₁,n,fills₁,past,near,rest⟩ := wrapAdds item positive wrap lower.2 whole
    rw [if_pos (by omega)]
    simp only [fills₁,bind,Option.bind]
    refine rest _ ?_
    -- n is at most twice the count, so one reduction takes it back to the first value
    have mod : (n : Int).tmod f.count = n - (f.last + 1) := by
      rw [Int.tmod_eq_emod_of_nonneg (by omega),← Int.sub_emod_right,Int.emod_eq_of_lt]
      all_goals omega
    rw [mod]
    omega
  · rw [if_neg (by omega)]
    exact fillAdds positive (Nat.le_of_not_lt wrap) (by omega)

theorem stepStar {f : Field} {item : Item} (whole : item.length = f.count) {s : Numeral}
    (positive : 1 ≤ s.value) :
    Adds (getListByStep ('*' :: '/' :: s.text) item f.first f.last) item
      (Every f f.first f.last s.value) := by
  have count := fieldCount f
  have slashes : ¬ ('*' :: '/' :: s.text).count '/' > 1 := by
    have one := countOne (show '/' ∉ ['*'] by decide) (s.fresh (c := '/') (by decide))
    simp only [List.cons_append,List.nil_append] at one
    omega
  have found : strchr ('*' :: '/' :: s.text) '/' = some ('/' :: s.text) :=
    strchrFound (show '/' ∉ ['*'] by decide)
  unfold getListByStep
  rw [if_neg slashes,found]
  simp only [List.head?_cons,if_true,List.length_cons,ne_eq,not_true,if_false,List.drop_succ_cons,
    List.drop_zero,s.atoiAll]
  rw [if_neg (by omega)]
  exact fillAdds positive (by omega) (by omega)

theorem stepNumber {f : Field} {item : Item} (whole : item.length = f.count) {n s : Numeral}
    (inside : InField f n) :
    Adds (getListByStep (n.text ++ '/' :: s.text) item f.first f.last) item (fun v => v = n.value) := by
  have count := fieldCount f
  have slashes : ¬ (n.text ++ '/' :: s.text).count '/' > 1 := by
    rw [countOne (n.fresh (by decide)) (s.fresh (by decide))]
    omega
  have found : strchr (n.text ++ '/' :: s.text) '/' = some ('/' :: s.text) :=
    strchrFound (n.fresh (by decide))
  have head : (n.text ++ '/' :: s.text).head? ≠ some '*' := by
    obtain ⟨c,rest,text,digit⟩ := n.head
    simp only [text,List.cons_append,List.head?_cons,ne_eq,Option.some.injEq]
    rintro rfl
    exact absurd digit (by decide)
  unfold InField at inside
  unfold getListByStep
  rw [if_neg slashes,found]
  simp only [if_neg head,n.scan (noDigitSlash s.text)]
  rw [if_neg (by omega)]
  exact putAdds (by omega)

theorem baseFresh (b : Base) {c : Char} (other : c.isDigit = false) (dash : c ≠ '-') (star : c ≠ '*') :
    c ∉ b.render := by
  cases b with
  | star => simpa [Base.render] using star
  | number n => exact n.fresh other
  | span lo hi => simp [Base.render,boundFresh lo other,boundFresh hi other,dash]

theorem renderNoComma (i : CronItem) : ',' ∉ i.render ∧ i.render ≠ [] := by
  have base : ',' ∉ i.base.render := baseFresh i.base (by decide) (by decide) (by decide)
  obtain ⟨b,s⟩ := i
  constructor
  · cases s with
    | none => simpa [CronItem.render] using base
    | some s => simp [CronItem.render,base,s.fresh (c := ',') (by decide)]
  · cases b with
    | star => simp [CronItem.render,Base.render]
    | number n => simp [CronItem.render,Base.render,n.digits.1]
    | span lo hi => simp [CronItem.render,Base.render]

theorem everyPath {f : Field} {i : CronItem} {a b : Nat} (path : i.base.path f = walk f a b) (v : Nat) :
    Every f a b (missing i.step 1) v ↔ Denotes f i v := by
  unfold Every Denotes
  rw [path]

theorem numberPath {f : Field} {n : Numeral} {s : Option Numeral} (v : Nat) :
    v = n.value ↔ Denotes f ⟨.number n,s⟩ v := by
  unfold Denotes
  constructor
  · rintro rfl
    exact ⟨0,by simp [Base.path]⟩
  · rintro ⟨k,at_⟩
    obtain ⟨zero,same⟩ : k * missing s 1 = 0 ∧ n.value = v := by
      simpa [Base.path,List.getElem?_singleton] using at_
    exact same.symm

theorem setsUndashed {f : Field} {i : CronItem} (plain : ¬ i.dash) (v : Nat) :
    Denotes f i v ↔ Sets f i v := by simp [Sets,plain]

theorem tokenAdds {f : Field} {item : Item} (whole : item.length = f.count) {i : CronItem}
    (wf : WellFormed f i) (read : ¬ i.uptoStep) :
    Adds (getListByToken i.render item f.first f.last f.count) item (Sets f i) := by
  obtain ⟨b,s⟩ := i
  cases b with
  | star =>
    have plain : ¬ CronItem.dash ⟨.star,s⟩ := fun h => Base.noConfusion h.1
    cases s with
    | none =>
      refine addsCongr (itemStar whole) fun v => ?_
      rw [← setsUndashed plain]
      exact everyPath (i := ⟨.star,none⟩) rfl v
    | some s =>
      have text : CronItem.render ⟨.star,some s⟩ = '*' :: '/' :: s.text := rfl
      have picked : getListByToken ('*' :: '/' :: s.text) item f.first f.last f.count =
          getListByStep ('*' :: '/' :: s.text) item f.first f.last := by
        simp [getListByToken,s.fresh (c := '-') (by decide)]
      rw [text,picked]
      refine addsCongr (stepStar whole (wf.step s rfl).1) fun v => ?_
      rw [← setsUndashed plain]
      exact everyPath (i := ⟨.star,some s⟩) rfl v
  | number n =>
    have plain : ¬ CronItem.dash ⟨.number n,s⟩ := fun h => Base.noConfusion h.1
    have inside := wf.number n rfl
    cases s with
    | none =>
      have text : CronItem.render ⟨.number n,none⟩ = n.text := List.append_nil n.text
      have picked : getListByToken n.text item f.first f.last f.count =
          getListByItem n.text item f.first f.last := by
        simp [getListByToken,n.fresh (c := '-') (by decide),n.fresh (c := '/') (by decide)]
      rw [text,picked]
      refine addsCongr (itemNumber whole inside) fun v => ?_
      rw [← setsUndashed plain]
      exact numberPath v
    | some s =>
      have text : CronItem.render ⟨.number n,some s⟩ = n.text ++ '/' :: s.text := rfl
      have picked : getListByToken (n.text ++ '/' :: s.text) item f.first f.last f.count =
          getListByStep (n.text ++ '/' :: s.text) item f.first f.last := by
        simp [getListByToken,n.fresh (c := '-') (by decide),s.fresh (c := '-') (by decide)]
      rw [text,picked]
      refine addsCongr (stepNumber whole inside) fun v => ?_
      rw [← setsUndashed plain]
      exact numberPath v
  | span lo hi =>
    have low : ∀ a, lo = some a → InField f a := fun a h => wf.lo a hi (by rw [h])
    have high : ∀ b, hi = some b → InField f b := fun b h => wf.hi lo b (by rw [h])
    cases s with
    | none =>
      have text : CronItem.render ⟨.span lo hi,none⟩ = bound lo ++ '-' :: bound hi := List.append_nil _
      have picked : getListByToken (bound lo ++ '-' :: bound hi) item f.first f.last f.count =
          getListByRange (bound lo ++ '-' :: bound hi) item f.first f.last := by
        simp [getListByToken,boundFresh lo (c := '/') (by decide),boundFresh hi (c := '/') (by decide)]
      rw [text,picked]
      refine addsCongr (rangeSpan whole low high) fun v => ?_
      by_cases open_ : lo = none ∧ hi = none
      · simp [Sets,CronItem.dash,open_]
      · have plain : ¬ CronItem.dash ⟨.span lo hi,none⟩ := by simpa [CronItem.dash] using open_
        rw [if_neg open_,← setsUndashed plain]
        exact everyPath (i := ⟨.span lo hi,none⟩) rfl v
    | some s =>
      have plain : ¬ CronItem.dash ⟨.span lo hi,some s⟩ := by simp [CronItem.dash]
      have text : CronItem.render ⟨.span lo hi,some s⟩ = bound lo ++ '-' :: bound hi ++ '/' :: s.text := rfl
      have picked : getListByToken (bound lo ++ '-' :: bound hi ++ '/' :: s.text) item f.first f.last f.count =
          getListByRangeAndStep (bound lo ++ '-' :: bound hi ++ '/' :: s.text) item f.first f.last f.count := by
        simp [getListByToken]
      have bounded : lo = none → hi = none := by
        rintro rfl
        cases hi with
        | none => rfl
        | some b => exact absurd ⟨b,s,rfl,rfl⟩ read
      have step := wf.step s rfl
      rw [text,picked]
      refine addsCongr (rangeStep whole low high step.1 step.2 bounded) fun v => ?_
      rw [← setsUndashed plain]
      exact everyPath (i := ⟨.span lo hi,some s⟩) rfl v

theorem tokenRefuses {f : Field} {item : Item} {i : CronItem} (wf : WellFormed f i) (upto : i.uptoStep) :
    getListByToken i.render item f.first f.last f.count = some (-1,item) := by
  obtain ⟨b,s⟩ := i
  obtain ⟨b,s,rfl,rfl⟩ := upto
  have picked : getListByToken (bound none ++ '-' :: bound (some b) ++ '/' :: s.text) item f.first f.last f.count =
      getListByRangeAndStep (bound none ++ '-' :: bound (some b) ++ '/' :: s.text) item f.first f.last f.count := by
    simp [getListByToken]
  exact picked.trans (rangeUptoStep (wf.step s rfl).1)

/- A list reads item by item, and a single item needs no list. -/
theorem parseTokens {f : Field} {items : List CronItem} (some_ : items ≠ []) (item : Item) :
    parse f (render items) item =
      getListTokens f.first f.last f.count (items.map CronItem.render) item := by
  have words : ∀ t ∈ items.map CronItem.render, t ≠ [] ∧ ',' ∉ t := by
    intro t ht
    obtain ⟨i,-,rfl⟩ := List.mem_map.1 ht
    exact ⟨(renderNoComma i).2,(renderNoComma i).1⟩
  match items, some_, words with
  | [i], _, words =>
    have single : render [i] = i.render := by simp [render]
    have noComma : ',' ∉ i.render := (renderNoComma i).1
    simp only [single,parse,parseCronEntryI,if_neg noComma,List.map_cons,List.map_nil,getListTokens]
    cases read : getListByToken i.render item f.first f.last f.count with
    | none => rfl
    | some r =>
      obtain ⟨result,item'⟩ := r
      by_cases zero : result = 0
      · simp [zero]
      · simp [zero]
  | i :: j :: rest, _, words =>
    have comma : ',' ∈ render (i :: j :: rest) := by
      simp [render]
    simp only [parse,parseCronEntryI,if_pos comma,getList]
    rw [render,strtokJoin (by simp) words]

theorem tokensAdd {f : Field} {items : List CronItem} {item : Item} (whole : item.length = f.count)
    (wf : ∀ i ∈ items, WellFormed f i) (read : ∀ i ∈ items, ¬ i.uptoStep) :
    Adds (getListTokens f.first f.last f.count (items.map CronItem.render) item) item
      (fun v => ∃ i ∈ items, Sets f i v) := by
  induction items generalizing item with
  | nil => exact ⟨item,rfl,rfl,by simp⟩
  | cons i items ih =>
    obtain ⟨item₁,result₁,length₁,marks₁⟩ :=
      tokenAdds whole (wf i List.mem_cons_self) (read i List.mem_cons_self)
    obtain ⟨item₂,result₂,length₂,marks₂⟩ := ih (length₁.trans whole)
      (fun j hj => wf j (List.mem_cons_of_mem i hj)) (fun j hj => read j (List.mem_cons_of_mem i hj))
    refine ⟨item₂,?_,by omega,fun v => ?_⟩
    · simp only [List.map_cons,getListTokens,result₁,bind,Option.bind,ne_eq,not_true,if_false,result₂]
    · rw [marks₂,marks₁,or_assoc]
      simp

theorem tokensRefuse {f : Field} {items : List CronItem} {item : Item} (whole : item.length = f.count)
    (wf : ∀ i ∈ items, WellFormed f i) (upto : ∃ i ∈ items, i.uptoStep) :
    ∃ item', getListTokens f.first f.last f.count (items.map CronItem.render) item = some (-1,item') := by
  induction items generalizing item with
  | nil => simp at upto
  | cons i items ih =>
    by_cases first : i.uptoStep
    · exact ⟨item,by simp [getListTokens,tokenRefuses (wf i List.mem_cons_self) first]⟩
    · obtain ⟨item₁,result₁,length₁,-⟩ := tokenAdds whole (wf i List.mem_cons_self) first
      have later : ∃ j ∈ items, j.uptoStep := by
        obtain ⟨j,hj,bad⟩ := upto
        rcases List.mem_cons.1 hj with rfl | hj
        · exact absurd bad first
        · exact ⟨j,hj,bad⟩
      obtain ⟨item₂,result₂⟩ := ih (length₁.trans whole)
        (fun j hj => wf j (List.mem_cons_of_mem i hj)) later
      exact ⟨item₂,by simp [getListTokens,result₁,result₂]⟩

/- A dash is documented to be a star. -/
theorem dashDenotes {f : Field} {i : CronItem} (dash : i.dash) (v : Nat) :
    Denotes f i v ↔ f.first ≤ v ∧ v ≤ f.last := by
  have count := fieldCount f
  obtain ⟨b,s⟩ := i
  obtain ⟨rfl,rfl⟩ := dash
  simp only [Denotes,Base.path,missing]
  rw [walkUp (by omega)]
  constructor
  · rintro ⟨k,rfl,low⟩
    omega
  · rintro ⟨high,low⟩
    exact ⟨v - f.first,by omega,low⟩

/- The values a lone dash leaves out must come from the other items. -/
def Covered (f : Field) (items : List CronItem) : Prop :=
  (∃ i ∈ items, i.dash) →
    ∀ v, f.first ≤ v → v ≤ f.last → v ≠ 0 → ∃ i ∈ items, ¬ i.dash ∧ Denotes f i v

theorem setsAgree {f : Field} {items : List CronItem} :
    (∀ v, (∃ i ∈ items, Sets f i v) ↔ ∃ i ∈ items, Denotes f i v) ↔ Covered f items := by
  constructor
  · rintro agree ⟨d,hd,dash⟩ v low high nonzero
    obtain ⟨i,hi,sets⟩ := (agree v).2 ⟨d,hd,(dashDenotes dash v).2 ⟨low,high⟩⟩
    rcases sets with ⟨-,-,zero⟩ | ⟨plain,denotes⟩
    · exact absurd zero nonzero
    · exact ⟨i,hi,plain,denotes⟩
  · intro covered v
    constructor
    · rintro ⟨i,hi,⟨dash,first,rfl⟩ | ⟨-,denotes⟩⟩
      · exact ⟨i,hi,(dashDenotes dash 0).2 (by omega)⟩
      · exact ⟨i,hi,denotes⟩
    · rintro ⟨i,hi,denotes⟩
      by_cases dash : i.dash
      · have range := (dashDenotes dash v).1 denotes
        by_cases zero : v = 0
        · exact ⟨i,hi,.inl ⟨dash,by omega,zero⟩⟩
        · obtain ⟨j,hj,plain,other⟩ := covered ⟨i,hi,dash⟩ v range.1 range.2 zero
          exact ⟨j,hj,.inr ⟨plain,other⟩⟩
      · exact ⟨i,hi,.inr ⟨dash,denotes⟩⟩

theorem meansIffNoOpenStepAndDashCovered {f : Field} {items : List CronItem} (some_ : items ≠ [])
    (wf : ∀ i ∈ items, WellFormed f i) :
    Meets f items ↔ (∀ i ∈ items, ¬ i.uptoStep) ∧ Covered f items := by
  have blank : ∀ v, ¬ marked (List.replicate f.count false) v := by
    intro v set
    simp only [marked,List.getElem?_replicate] at set
    split at set <;> simp_all
  by_cases read : ∀ i ∈ items, ¬ i.uptoStep
  · obtain ⟨item',result,length,marks⟩ :=
      tokensAdd (List.length_replicate (n := f.count) (a := false)) wf read
    rw [← parseTokens some_] at result
    have sets : ∀ v, item'[v]? = some true ↔ ∃ i ∈ items, Sets f i v := fun v =>
      (marks v).trans (or_iff_right (blank v))
    rw [and_iff_right read,← setsAgree]
    constructor
    · rintro ⟨item₂,result₂,-,meets⟩ v
      obtain rfl : item' = item₂ := by rw [result] at result₂; cases result₂; rfl
      exact (sets v).symm.trans (meets v)
    · intro agree
      exact ⟨item',result,by simpa using length,fun v => (sets v).trans (agree v)⟩
  · have upto : ∃ i ∈ items, i.uptoStep := by
      by_contra none_
      exact read fun i hi bad => none_ ⟨i,hi,bad⟩
    obtain ⟨item',result⟩ := tokensRefuse (List.length_replicate (n := f.count) (a := false)) wf upto
    constructor
    · rintro ⟨item₂,result₂,-⟩
      rw [parseTokens some_,result] at result₂
      cases result₂
    · exact fun h => absurd h.1 read

/- 22-3/2 in the hour field, which wraps to 22, 0 and 2. -/
def nightHours : CronItem where
  base := .span (some ⟨['2','2'],by decide⟩) (some ⟨['3'],by decide⟩)
  step := some ⟨['2'],by decide⟩

theorem nightHoursWellFormed : WellFormed .hour nightHours where
  number := by simp [nightHours]
  lo := by
    rintro a hi same
    cases same
    decide
  hi := by
    rintro lo b same
    cases same
    decide
  step := by
    rintro s same
    cases same
    decide

theorem nightHoursMeet : Meets .hour [nightHours] := by
  refine (meansIffNoOpenStepAndDashCovered (by simp) ?_).2 ⟨?_,?_⟩
  · rintro i hi
    obtain rfl := List.mem_singleton.1 hi
    exact nightHoursWellFormed
  · rintro i hi ⟨b,s,base,-⟩
    obtain rfl := List.mem_singleton.1 hi
    cases base
  · rintro ⟨i,hi,dash⟩
    obtain rfl := List.mem_singleton.1 hi
    cases dash.1

def loneDash : CronItem := ⟨.span none none,none⟩

def upto20by2 : CronItem := ⟨.span none (some ⟨['2','0'],by decide⟩),some ⟨['2'],by decide⟩⟩

/- In the minute field "-" sets only minute 0, and "-20/2" is refused. -/
theorem dashIsNotStarAndOpenStepRefused :
    (WellFormed .minute loneDash ∧ ¬ Meets .minute [loneDash]) ∧
    (WellFormed .minute upto20by2 ∧ ¬ Meets .minute [upto20by2]) := by
  refine ⟨⟨⟨?_,?_,?_,?_⟩,?_⟩,⟨⟨?_,?_,?_,?_⟩,?_⟩⟩
  · simp [loneDash]
  · simp [loneDash]
  · simp [loneDash]
  · simp [loneDash]
  · rintro ⟨item,result,-,meets⟩
    have zeroOnly : parse .minute (render [loneDash]) (List.replicate 60 false) =
        some (0,true :: List.replicate 59 false) := by decide
    rw [show (Field.minute).count = 60 from rfl,zeroOnly] at result
    cases result
    have one := (meets 1).2 ⟨loneDash,List.mem_singleton_self _,1,rfl⟩
    simp at one
  · simp [upto20by2]
  · simp [upto20by2]
  · rintro lo b same
    cases same
    decide
  · rintro s same
    cases same
    decide
  · rintro ⟨item,result,-⟩
    have refused : parse .minute (render [upto20by2]) (List.replicate 60 false) =
        some (-1,List.replicate 60 false) := by decide
    rw [show (Field.minute).count = 60 from rfl,refused] at result
    cases result

end CuteNdk.CronField
