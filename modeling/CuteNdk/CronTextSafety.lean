import CuteNdk.CronTextItems
import CuteNdk.CronTextCut

/-! parse_cron_entry on every text: where it stays inside its copy and the item arrays
and refuses the texts with too few fields or a number out of range. -/
namespace CuteNdk.CronText
open Lib.CString
open TimerQueue (CronEntry)

structure WholeEntry (e : CronEntry) : Prop where
  min : Whole minute e.min
  hour : Whole hour e.hour
  mday : Whole mday e.mday
  month : Whole month e.month
  wday : Whole wday e.wday

/- The numbers of a text are its runs of digits. -/
def numbers (s : Str) : List Nat := ((s.splitOnP fun c => !c.isDigit).filter fun t => !t.isEmpty).map decimal

def OutOfRange (en : Str) : Prop :=
  ∃ f ∈ [minute,hour,mday,month,wday].zip (fields en), ∃ n ∈ numbers f.2, Out f.1 n

def Malformed (en : Str) : Prop := (fields en).length < 5 ∨ OutOfRange en

instance (en) : Decidable (OutOfRange en) := by unfold OutOfRange; infer_instance
instance (en) : Decidable (Malformed en) := by unfold Malformed; infer_instance

/- It returns, with -1 for a malformed text. -/
def Meets (en : Str) (e : CronEntry) : Prop :=
  ∃ result e', parseCronEntry en e = some (result,e') ∧ WholeEntry e' ∧ (Malformed en → result = -1)

def stripped (en : Str) : Str := (en.dropWhile isspace).rdropWhile isspace

/- The items of a text in the order they are read: those of its first four fields, and
of what follows them. -/
def itemsFrom : List Range → Str → List (Range × Str)
  | [], _ => []
  | [r], s => itemsOf r s
  | r :: r' :: rs, s =>
    itemsOf r (s.takeWhile notBlank) ++ itemsFrom (r' :: rs) ((s.dropWhile notBlank).dropWhile isspace)

def entryItems (text : Str) : List (Range × Str) := itemsFrom [minute,hour,mday,month,wday] text

/- The texts that are neither blank nor a special string, have five fields if they
have nine characters, and are refused for their first item that is not accepted, or
have items that are all accepted and no number out of range. -/
def Sound (en : Str) : Prop :=
  en = [] ∨ en.dropWhile isspace ≠ [] ∧
    if (en.dropWhile isspace).head? = some '@' then '@' ∈ en.drop 1
    else (stripped en).length < 9 ∨ 5 ≤ (fields en).length ∧
      ∃ text, numeric (stripped en) = some text ∧
        (Rejects (entryItems text) ∨ Accepts (entryItems text) ∧ ¬OutOfRange en)

section Fields
variable {e : CronEntry} {s : Str}

theorem nextFieldIs {word rest : Str} (h : nextField s = some (word,rest)) :
    s.takeWhile notBlank = word ∧ (s.dropWhile notBlank).dropWhile isspace = rest := by
  unfold nextField at h
  split at h
  · cases h
  · cases Option.some.inj h
    exact ⟨rfl,rfl⟩

/- The first four pointers read to the terminators put in, the last one to the end. -/
theorem cutEntryReads (h : Trimmed s) :
    (∃ min hour_ mday_ month_ wday_, cutEntry s = some (min,hour_,mday_,month_,wday_) ∧ 5 ≤ fieldCount false s ∧
      entryItems s = itemsOf minute min ++ (itemsOf hour hour_ ++ (itemsOf mday mday_ ++
        (itemsOf month month_ ++ itemsOf wday wday_)))) ∨
    cutEntry s = none ∧ fieldCount false s < 5 := by
  unfold cutEntry
  simp only [bind,Option.bind]
  rcases cutCases h with ⟨_,solid⟩ | ⟨w₁,b₁,s₁,r₁,next₁,cut₁⟩
  · have runs : advance (s ++ [NUL]) 0 = none := @advanceRuns [] s solid
    exact .inr ⟨by simp only [runs],by rw [solidCount solid]; decide⟩
  obtain ⟨g₁,at₁⟩ : ∃ g₁, advance (s ++ [NUL]) 0 = _ := @advanceCuts [] w₁ r₁ s s₁ b₁ cut₁
  have count₁ := cutCount cut₁
  obtain ⟨p₁,def₁⟩ : ∃ p, p = [] ++ (w₁ ++ NUL :: g₁) := ⟨_,rfl⟩
  rw [← def₁] at at₁
  rcases cutCases cut₁.rest with ⟨_,solid⟩ | ⟨w₂,b₂,s₂,r₂,next₂,cut₂⟩
  · exact .inr ⟨by simp only [at₁,advanceRuns solid],by rw [count₁,solidCount solid]; decide⟩
  obtain ⟨g₂,at₂⟩ := @advanceCuts p₁ w₂ r₂ r₁ s₂ b₂ cut₂
  have count₂ := cutCount cut₂
  obtain ⟨p₂,def₂⟩ : ∃ p, p = p₁ ++ (w₂ ++ NUL :: g₂) := ⟨_,rfl⟩
  rw [← def₂] at at₂
  rcases cutCases cut₂.rest with ⟨_,solid⟩ | ⟨w₃,b₃,s₃,r₃,next₃,cut₃⟩
  · exact .inr ⟨by simp only [at₁,at₂,advanceRuns solid],by rw [count₁,count₂,solidCount solid]; decide⟩
  obtain ⟨g₃,at₃⟩ := @advanceCuts p₂ w₃ r₃ r₂ s₃ b₃ cut₃
  have count₃ := cutCount cut₃
  obtain ⟨p₃,def₃⟩ : ∃ p, p = p₂ ++ (w₃ ++ NUL :: g₃) := ⟨_,rfl⟩
  rw [← def₃] at at₃
  rcases cutCases cut₃.rest with ⟨_,solid⟩ | ⟨w₄,b₄,s₄,r₄,next₄,cut₄⟩
  · exact .inr ⟨by simp only [at₁,at₂,at₃,advanceRuns solid],
      by rw [count₁,count₂,count₃,solidCount solid]; decide⟩
  obtain ⟨g₄,at₄⟩ := @advanceCuts p₃ w₄ r₄ r₃ s₄ b₄ cut₄
  have count₄ := cutCount cut₄
  obtain ⟨p₄,def₄⟩ : ∃ p, p = p₃ ++ (w₄ ++ NUL :: g₄) := ⟨_,rfl⟩
  rw [← def₄] at at₄
  have free : ∀ {w : Str}, Solid w → NUL ∉ w := fun solid mem => (solid.2 NUL mem).2 rfl
  have reads : ∀ {b pre w rest : Str}, NUL ∉ w → b = pre ++ (w ++ NUL :: rest) → cstr b pre.length = w := by
    intro b pre w rest noNul same
    rw [same]
    exact cstrReads noNul
  have min : cstr (p₄ ++ (r₄ ++ [NUL])) ([] : Str).length = w₁ :=
    reads (free cut₁.solid) (by rw [def₄,def₃,def₂,def₁]; simp only [List.append_assoc,List.cons_append,List.nil_append]; rfl)
  have hour_ : cstr (p₄ ++ (r₄ ++ [NUL])) p₁.length = w₂ :=
    reads (free cut₂.solid) (by rw [def₄,def₃,def₂]; simp only [List.append_assoc,List.cons_append]; rfl)
  have mday_ : cstr (p₄ ++ (r₄ ++ [NUL])) p₂.length = w₃ :=
    reads (free cut₃.solid) (by rw [def₄,def₃]; simp only [List.append_assoc,List.cons_append]; rfl)
  have month_ : cstr (p₄ ++ (r₄ ++ [NUL])) p₃.length = w₄ :=
    reads (free cut₄.solid) (by rw [def₄]; simp only [List.append_assoc,List.cons_append]; rfl)
  have wday_ : cstr (p₄ ++ (r₄ ++ [NUL])) p₄.length = r₄ := reads cut₄.rest.noNul rfl
  refine .inl ⟨w₁,w₂,w₃,w₄,r₄,?_,?_,?_⟩
  · simp only [at₁,at₂,at₃,at₄,hour_,mday_,month_,wday_]
    exact congrArg (fun w => some (w,w₂,w₃,w₄,r₄)) min
  · have some_ : 1 ≤ fieldCount false r₄ := by
      rcases cutCases cut₄.rest with ⟨_,solid⟩ | ⟨_,_,_,_,_,cut₅⟩
      · rw [solidCount solid]
      · rw [cutCount cut₅]
        exact Nat.le_add_right 1 _
    omega
  · simp only [entryItems,itemsFrom,nextFieldIs next₁,nextFieldIs next₂,nextFieldIs next₃,nextFieldIs next₄]

theorem aliasRuns {item : CronField.Item} (whole : Whole wday item) :
    ∃ item', aliasSunday item = some item' ∧ Whole wday item' := by
  have length : item.length = 8 := whole
  have set : ∀ (c : Bool) (i : Nat) (l : CronField.Item), (if c then l.set i true else l).length = l.length := by
    intro c i l
    cases c <;> simp
  obtain ⟨first,at₁⟩ : ∃ b, item[wday.first]? = some b :=
    ⟨_,List.getElem?_eq_getElem (show 0 < item.length by omega)⟩
  obtain ⟨last,at₂⟩ : ∃ b, (if first then item.set wday.last true else item)[wday.last]? = some b :=
    ⟨_,List.getElem?_eq_getElem (show 7 < _ by rw [set]; omega)⟩
  refine ⟨if last then (if first then item.set wday.last true else item).set wday.first true
    else if first then item.set wday.last true else item,?_,?_⟩
  · unfold aliasSunday
    simp only [at₁,at₂,bind,Option.bind]
  · change List.length _ = 8
    rw [set,set,length]

/- The items of the five fields, one after the other. -/
theorem parseFieldsReads (whole : WholeEntry e) (min hour_ mday_ month_ wday_ : Str) :
    Outcome
      (Rejects (itemsOf minute min ++ (itemsOf hour hour_ ++ (itemsOf mday mday_ ++
        (itemsOf month month_ ++ itemsOf wday wday_)))))
      (Accepts (itemsOf minute min ++ (itemsOf hour hour_ ++ (itemsOf mday mday_ ++
        (itemsOf month month_ ++ itemsOf wday wday_)))))
      WholeEntry (parseFields min hour_ mday_ month_ wday_ e) := by
  have apart : ∀ {l}, Accepts l → ¬Rejects l := fun accepts rejects => rejectsNotAccepts rejects accepts
  simp only [rejectsAppend,acceptsAppend]
  unfold parseFields
  refine outcomeThen (fieldReads whole.min) apart
    (fun _ keeps => ⟨_,rfl,keeps,whole.hour,whole.mday,whole.month,whole.wday⟩) fun a keepsA => ?_
  simp only [ne_eq,not_true_eq_false,if_false]
  refine outcomeThen (fieldReads whole.hour) apart
    (fun _ keeps => ⟨_,rfl,keepsA,keeps,whole.mday,whole.month,whole.wday⟩) fun b keepsB => ?_
  simp only [not_true_eq_false,if_false]
  refine outcomeThen (fieldReads whole.mday) apart
    (fun _ keeps => ⟨_,rfl,keepsA,keepsB,keeps,whole.month,whole.wday⟩) fun c keepsC => ?_
  simp only [not_true_eq_false,if_false]
  refine outcomeThen (fieldReads whole.month) apart
    (fun _ keeps => ⟨_,rfl,keepsA,keepsB,keepsC,keeps,whole.wday⟩) fun d keepsD => ?_
  simp only [not_true_eq_false,if_false]
  -- the Sunday of the last field is 0 and 7, and the text is accepted there
  have alone : (Rejects (itemsOf wday wday_) ∨ Accepts (itemsOf wday wday_) ∧ False ↔ Rejects (itemsOf wday wday_)) ∧
      (Accepts (itemsOf wday wday_) ∧ True ↔ Accepts (itemsOf wday wday_)) := by simp
  refine outcomeCongr (outcomeThen (fieldReads whole.wday) apart
    (fun _ keeps => ⟨_,rfl,keepsA,keepsB,keepsC,keepsD,keeps⟩) fun f keepsF => ?_) alone.1 alone.2
  obtain ⟨item',aliased,keeps⟩ := aliasRuns keepsF
  exact .accepts trivial ⟨a,b,c,d,item'⟩ (by simp [aliased]) ⟨keepsA,keepsB,keepsC,keepsD,keeps⟩

end Fields

section Text
variable {en : Str} {e : CronEntry}

theorem meetsRefused (whole : WholeEntry e) (copy : copyEntry en = some none) : Meets en e := by
  refine ⟨-1,e,?_,whole,fun _ => rfl⟩
  simp only [parseCronEntry,copy,bind,Option.bind]

theorem parseAnswers (whole : WholeEntry e) {result : Int} {e' : CronEntry}
    (gives : parseCronEntry en e = some (result,e')) : result = 0 ∨ result = -1 := by
  obtain ⟨copy,_,gives⟩ := Option.bind_eq_some_iff.1 gives
  cases copy with
  | none =>
    cases Option.some.inj gives
    exact .inr rfl
  | some entry =>
    obtain ⟨⟨min,hour_,mday_,month_,wday_⟩,_,gives⟩ := Option.bind_eq_some_iff.1 gives
    rcases parseFieldsReads whole min hour_ mday_ month_ wday_ with ⟨_,_,same,_⟩ | ⟨_,_,same,_⟩ | ⟨_,_,same⟩
    · cases Option.some.inj (same.symm.trans gives)
      exact .inr rfl
    · cases Option.some.inj (same.symm.trans gives)
      exact .inl rfl
    · cases same.symm.trans gives

theorem malformedWhere (enough : 5 ≤ (fields en).length) : Malformed en ↔ OutOfRange en :=
  ⟨fun either => either.elim (fun few => absurd few (by omega)) id,.inr⟩

/- A text whose copy is cut meets the claim if its items are refused, or are accepted
and in range. -/
theorem meetsCut {text : Str} (whole : WholeEntry e) (copy : copyEntry en = some (some text)) (trim : Trimmed text)
    (count : fieldCount false text = (fields en).length) :
    Meets en e ↔ 5 ≤ (fields en).length ∧
      (Rejects (entryItems text) ∨ Accepts (entryItems text) ∧ ¬OutOfRange en) := by
  rcases cutEntryReads trim with ⟨min,hour_,mday_,month_,wday_,cut,enough,items⟩ | ⟨cut,few⟩
  · rw [count] at enough
    have parses : parseCronEntry en e = parseFields min hour_ mday_ month_ wday_ e := by
      simp only [parseCronEntry,copy,cut,bind,Option.bind]
    have outcome := parseFieldsReads whole min hour_ mday_ month_ wday_
    rw [← items,← parses] at outcome
    unfold Meets
    rw [malformedWhere enough]
    rcases outcome with ⟨rejects,e',gives,keeps⟩ | ⟨accepts,e',gives,keeps⟩ | ⟨no,no',gives⟩
    · exact ⟨fun _ => ⟨enough,.inl rejects⟩,fun _ => ⟨-1,e',gives,keeps,fun _ => rfl⟩⟩
    · constructor
      · rintro ⟨result,e'',gives',_,answer⟩
        rw [gives] at gives'
        cases Option.some.inj gives'
        exact ⟨enough,.inr ⟨accepts,fun out => absurd (answer out) (by decide)⟩⟩
      · rintro ⟨_,rejects | ⟨_,inRange⟩⟩
        · exact absurd accepts (rejectsNotAccepts rejects)
        · exact ⟨0,e',gives,keeps,fun out => absurd out inRange⟩
    · constructor
      · rintro ⟨_,_,gives',_⟩
        rw [gives] at gives'
        cases gives'
      · rintro ⟨_,rejects | ⟨accepts,_⟩⟩
        · exact absurd rejects no
        · exact absurd accepts no'
  · rw [count] at few
    constructor
    · rintro ⟨_,_,gives,_⟩
      simp only [parseCronEntry,copy,cut,bind,Option.bind] at gives
      cases gives
    · rintro ⟨enough,_⟩
      omega

/- The comparisons with the special strings find an empty copy. -/
theorem meetsSpecial (start : (en.dropWhile isspace).head? = some '@') (alone : '@' ∉ en.drop 1) : ¬Meets en e := by
  have copy : copyEntry en = some (some []) := by
    unfold copyEntry
    rw [if_pos start,if_neg fun found => found (strchrNone.mpr alone)]
    decide
  have cut : cutEntry [] = none := by decide
  rintro ⟨_,_,gives,_⟩
  simp only [parseCronEntry,copy,cut,bind,Option.bind] at gives
  cases gives

end Text

end CuteNdk.CronText
