import CuteNdk.LogManager

/-! A record in the buffer. With max the length of one record of the logger, p characters of
header and n of message, the record goes wrong where the text is as long as max exactly. The
buffer has max + 1 places for the loggers that were there when it was built. -/
namespace CuteNdk.Log
open Lib Lib.CString Manager

/- What is put lies inside the array, and what is output is a line without a terminator in it. -/
def KeepsRecord (m : Manager) (l : Logger) (lt : BitVec 32) (stamp : Stamp) (message : Message) : Prop :=
  ∃ output m', m.log l lt stamp message = some (output,m') ∧
    ∀ record ∈ output, ∃ text, record = text ++ ['\n'] ∧ nul ∉ text

/- Header and message do not end at max, and the array has room for what is kept of them, for
the newline and for the terminator. -/
structure Fits (size max p n : Nat) (ret : Int) : Prop where
  header : p ≠ max
  message : 0 ≤ ret → n ≠ max - min p (max - 1)
  room : min (p + n) (max - 1) + (if ret < 0 then 1 else 2) ≤ size

section Buffer
variable {buf s : Str} {i : Nat}

theorem putNat : put buf i s =
    if i + s.length ≤ buf.length then some (buf.take i ++ s ++ buf.drop (i + s.length)) else none := by
  unfold put
  rw [Int.toNat_natCast]
  split
  · rename_i inside
    rw [if_pos inside.2]
  · rename_i outside
    rw [if_neg fun inside => outside ⟨Int.natCast_nonneg i,inside⟩]

/- After the text that ends at the place. -/
theorem putAfter (w rest : Str) : put (w ++ rest) w.length s =
    if s.length ≤ rest.length then some (w ++ s ++ rest.drop s.length) else none := by
  rw [putNat,List.length_append,List.take_left,List.drop_append]
  by_cases inside : s.length ≤ rest.length
  · rw [if_pos (Nat.add_le_add_left inside _),if_pos inside,List.drop_eq_nil_of_le (Nat.le_add_right _ _),List.nil_append,
      Nat.add_sub_cancel_left]
  · rw [if_neg (fun no => inside (Nat.le_of_add_le_add_left no)),if_neg inside]

theorem snprintfNat (buf s : Str) (i : Nat) {size : Nat} (some_ : 0 < size) (small : size < 0x80000000) :
    snprintf buf i size s = put buf i (s.take (size - 1) ++ [nul]) := by
  have same : ((size : Int) % 0x10000000000000000).toNat = size := by
    rw [Int.emod_eq_of_lt (by omega) (by omega),Int.toNat_natCast]
  unfold snprintf
  simp only [same]
  rw [if_neg (by omega)]

/- The newline follows the first len characters. -/
theorem outputRecordNat (buf : Str) (m : Manager) (len : Nat) : (m.outputRecord buf len).map Prod.fst =
    if len + 2 ≤ buf.length then some (some (buf.take len ++ ['\n'])) else none := by
  unfold outputRecord
  have next : ((len : Int) + 1) = ((len + 1 : Nat) : Int) := by omega
  rw [next,putNat]
  by_cases first : len + 1 ≤ buf.length
  · have size : (buf.take len ++ ['\n'] ++ buf.drop (len + 1)).length = buf.length := by
      simp only [List.length_append,List.length_take,List.length_drop,List.length_cons,List.length_nil]
      omega
    have front : (buf.take len ++ ['\n']).length = len + 1 := by
      rw [List.length_append,List.length_take_of_le (by omega)]
      rfl
    simp only [List.length_cons,List.length_nil,Nat.zero_add,if_pos first,Option.bind_some,putNat,size]
    by_cases second : len + 2 ≤ buf.length
    · rw [if_pos second,if_pos second,Option.map_some,Option.map_some,Int.toNat_natCast]
      congr 2
      rw [List.append_assoc,List.take_append_of_le_length (by simp; omega),List.take_take,Nat.min_self,
        List.take_append_of_le_length (by omega),List.take_of_length_le (by omega)]
    · rw [if_neg second,if_neg second]
      rfl
  · rw [if_neg (by simpa using first),if_neg (by omega)]
    rfl

end Buffer

section Log
variable {m : Manager} {l : Logger} {lt : BitVec 32} {stamp : Stamp} {message : Message}

/- The header, cut to the characters that fit max, and the terminator after it. -/
theorem headerWrite {buf head : Str} {max q : Nat} (some_ : 0 < max) (small : max < 0x80000000)
    (kept : q = min head.length (max - 1)) : snprintf buf 0 max head =
      if q + 1 ≤ buf.length then some (head.take q ++ nul :: buf.drop (q + 1)) else none := by
  have cut : head.take (max - 1) = head.take q := by
    rw [kept,Nat.min_comm]
    exact List.take_eq_take_min
  have first : (head.take q).length = q := List.length_take_of_le (by omega)
  have written := snprintfNat buf head 0 some_ small
  have put0 := putAfter (s := head.take q ++ [nul]) [] buf
  rw [List.nil_append,List.length_nil] at put0
  rw [cut,put0,List.length_append,first] at written
  rw [show (0 : Int) = ((0 : Nat) : Int) from rfl,written]
  simp only [List.length_singleton,List.nil_append,List.append_assoc,List.cons_append]

/- The message follows the header. Both are cut to the characters that fit max. -/
theorem twoWrites (buf head text : Str) {max q : Nat} (some_ : 0 < max) (small : max < 0x80000000)
    (kept : q = min head.length (max - 1)) :
    (min (head.length + text.length) (max - 1) + 1 ≤ buf.length ∧ ∃ tail,
      ((snprintf buf 0 max head).bind fun buf => snprintf buf q ((max : Int) - q) text) =
        some (head.take q ++ text.take (max - q - 1) ++ nul :: tail) ∧
      (head.take q ++ text.take (max - q - 1) ++ nul :: tail).length = buf.length) ∨
    buf.length < min (head.length + text.length) (max - 1) + 1 ∧
      ((snprintf buf 0 max head).bind fun buf => snprintf buf q ((max : Int) - q) text) = none := by
  have first : (head.take q).length = q := List.length_take_of_le (by omega)
  have second : (text.take (max - q - 1)).length = min (max - q - 1) text.length := List.length_take
  have left : ((max : Int) - q) = ((max - q : Nat) : Int) := by omega
  rw [headerWrite some_ small kept,left]
  by_cases room : q + 1 ≤ buf.length
  · have written (tail : Str) := snprintfNat (head.take q ++ nul :: tail) text q
      (show 0 < max - q by omega) (by omega)
    have putq (tail : Str) := putAfter (s := text.take (max - q - 1) ++ [nul]) (head.take q) (nul :: tail)
    rw [first] at putq
    rw [if_pos room,Option.bind_some,written,putq]
    simp only [List.length_append,List.length_cons,List.length_nil,List.length_drop,second,first]
    by_cases fits : min (head.length + text.length) (max - 1) + 1 ≤ buf.length
    · refine .inl ⟨fits,?_⟩
      rw [if_pos (by omega)]
      refine ⟨(buf.drop (q + 1)).drop (min (max - q - 1) text.length),?_,?_⟩
      · simp only [List.append_assoc,List.drop_succ_cons,List.cons_append,List.nil_append,Nat.zero_add]
      · rw [List.length_drop,List.length_drop]
        omega
    · refine .inr ⟨by omega,?_⟩
      rw [if_neg (by omega)]
  · refine .inr ⟨by omega,?_⟩
    rw [if_neg room]
    rfl

/- The record is a line of the first len characters. -/
theorem keepsOutput {buf : Str} (m : Manager) (len : Nat) :
    (∃ output m', m.outputRecord buf len = some (output,m') ∧
      ∀ record ∈ output, ∃ text, record = text ++ ['\n'] ∧ nul ∉ text) ↔ len + 2 ≤ buf.length ∧ nul ∉ buf.take len := by
  have written := outputRecordNat buf m len
  constructor
  · rintro ⟨output,m',done,line⟩
    rw [done,Option.map_some] at written
    split at written
    · rename_i inside
      cases Option.some.inj written
      obtain ⟨text,same,clean⟩ := line _ rfl
      obtain ⟨rfl,_⟩ := List.append_inj' same rfl
      exact ⟨inside,clean⟩
    · cases written
  · rintro ⟨inside,clean⟩
    rw [if_pos inside] at written
    obtain ⟨⟨output,m'⟩,done,same⟩ := Option.map_eq_some_iff.mp written
    refine ⟨output,m',done,fun record is => ?_⟩
    rw [show output = some (buf.take len ++ ['\n']) from same] at is
    cases Option.some.inj is
    exact ⟨_,rfl,clean⟩

theorem retLength {message : Message} (fine : ¬ message.ret < 0) : message.ret = message.text.length := by
  unfold Message.ret at fine ⊢
  split at fine
  · exact absurd (by decide) fine
  · rename_i whole
    rw [if_neg whole]

/- A silent logger writes nothing. Otherwise all comes down to where the text ends. -/
theorem keepsRecordIff (max : Nat) (some_ : 0 < max) (small : max < 0x80000000)
    (length : l.moduleEntry.maxLenOfOneRecord = max)
    (clean : nul ∉ header stamp lt l.moduleName ++ message.text) : KeepsRecord m l lt stamp message ↔
      (l.shutdown || !l.enableFor lt) = true ∨
      Fits m.logRecord.length max (header stamp lt l.moduleName).length message.text.length message.ret := by
  unfold KeepsRecord Manager.log
  by_cases silent : (l.shutdown || !l.enableFor lt) = true
  · rw [if_pos silent]
    exact iff_of_true ⟨none,m,rfl,fun record no => absurd no (Option.not_mem_none record)⟩ (.inl silent)
  · rw [if_neg silent,or_iff_right silent]
    simp only [length]
    generalize header stamp lt l.moduleName = head at *
    by_cases ends : head.length = max
    · -- the header ends at max: its terminator stays in front of the newline
      refine iff_of_false ?_ fun fits => fits.header ends
      rw [ends,if_neg (Int.lt_irrefl _),headerWrite some_ small rfl]
      rintro ⟨output,m',done,line⟩
      obtain ⟨buf,written,done⟩ := Option.bind_eq_some_iff.mp done
      rw [if_neg (Int.lt_irrefl _)] at done
      split at written
      · cases Option.some.inj written
        have kept := ((keepsOutput m max).mp ⟨output,m',done,line⟩).2
        refine kept ?_
        have short : (head.take (min head.length (max - 1))).length = max - 1 := by
          rw [List.length_take]
          omega
        rw [List.take_append,short,show max - (max - 1) = 0 + 1 by omega,List.take_succ_cons]
        exact List.mem_append_right _ List.mem_cons_self
      · cases written
    · obtain ⟨q,kept⟩ : ∃ q, q = min head.length (max - 1) := ⟨_,rfl⟩
      have len : (if (max : Int) < head.length then (max : Int) - 1 else head.length) = q := by
        split <;> omega
      simp only [len,if_pos (show (q : Int) < max by omega)]
      rw [← Option.bind_assoc]
      rcases twoWrites m.logRecord head message.text some_ small kept with
        ⟨room,tail,written,same⟩ | ⟨full,none'⟩
      · rw [written,Option.bind_some]
        have sizes : (head.take q ++ message.text.take (max - q - 1)).length =
            min (head.length + message.text.length) (max - 1) := by
          rw [List.length_append,List.length_take,List.length_take]
          omega
        have line : nul ∉ head.take q ++ message.text.take (max - q - 1) := by
          intro mem
          rcases List.mem_append.mp mem with mem | mem
          · exact clean (List.mem_append_left _ (List.mem_of_mem_take mem))
          · exact clean (List.mem_append_right _ (List.mem_of_mem_take mem))
        by_cases failed : message.ret < 0
        · rw [if_pos failed]
          refine iff_of_true ⟨none,_,rfl,fun record no => absurd no (Option.not_mem_none record)⟩ ⟨ends,?_,?_⟩
          · exact fun fine => absurd failed (Int.not_lt.mpr fine)
          · rw [if_pos failed]
            exact room
        · rw [if_neg failed]
          have ret := retLength failed
          by_cases exact_ : message.text.length = max - q
          · -- the message ends at max
            have here : (q : Int) + (if (max : Int) - q < message.ret then (max : Int) - q - 1 else message.ret) = (max : Nat) := by
              rw [ret,if_neg (by omega)]
              omega
            rw [here,keepsOutput]
            refine iff_of_false (fun ⟨_,no⟩ => no ?_) fun fits => fits.message (Int.not_lt.mp failed) (by rw [exact_,kept])
            rw [List.take_append,sizes,show max - min (head.length + message.text.length) (max - 1) = 0 + 1 by omega,
              List.take_succ_cons]
            exact List.mem_append_right _ List.mem_cons_self
          · have here : (q : Int) + (if (max : Int) - q < message.ret then (max : Int) - q - 1 else message.ret) =
                (min (head.length + message.text.length) (max - 1) : Nat) := by
              rw [ret]
              split <;> omega
            rw [here,keepsOutput,same,List.take_left' sizes,and_iff_left line]
            constructor
            · intro inside
              refine ⟨ends,fun _ => by rw [← kept]; exact exact_,?_⟩
              rw [if_neg failed]
              exact inside
            · intro fits
              have inside := fits.room
              rw [if_neg failed] at inside
              exact inside
      · rw [none',Option.bind_none]
        refine iff_of_false (fun ⟨_,_,no,_⟩ => by cases no) fun fits => ?_
        have room := fits.room
        split at room <;> omega

end Log

section Runs
variable {m m' : Manager} {l : Logger} {lt : BitVec 32} {stamp : Stamp} {message : Message}

/- The lengths are ints. -/
def Ints (m : Manager) : Prop :=
  m.maxLenOfOneRecord < 0x80000000 ∧ ∀ l ∈ m.loggers, l.moduleEntry.maxLenOfOneRecord < 0x80000000

theorem entryInt {ini : Option Dictionary} {mname : Str} {entry : ModuleEntry}
    (found : getModuleCfgEntry ini mname = some entry) : entry.maxLenOfOneRecord < 0x80000000 := by
  unfold getModuleCfgEntry at found
  cases ini with
  | none =>
    cases Option.some.inj found
    decide
  | some ini =>
    obtain ⟨type,_,found⟩ := Option.bind_eq_some_iff.mp found
    obtain ⟨parentType,_,found⟩ := Option.bind_eq_some_iff.mp found
    obtain ⟨outputs,_,same⟩ := Option.map_eq_some_iff.mp found
    rw [← same]
    simp only
    cases (getLogMaxLenOfOneRecord ini mname).or (if '.' ∈ mname then getParentMaxLenOfOneRecord ini mname else none) with
    | none => decide
    | some value => exact Int.bmod_lt (by decide)

theorem applyConfigKeeps (did : m.applyConfig = some m') : m'.maxLenOfOneRecord = m.maxLenOfOneRecord ∧
    ∀ l ∈ m'.loggers, l.moduleEntry.maxLenOfOneRecord < 0x80000000 := by
  obtain ⟨loggers,all,same⟩ := Option.map_eq_some_iff.mp did
  rw [mapMFilter] at all
  split at all
  · cases Option.some.inj all
    cases same
    refine ⟨rfl,fun l mem => ?_⟩
    obtain ⟨old,_,renewed⟩ := List.mem_filterMap.mp mem
    obtain ⟨entry,found,same⟩ := Option.map_eq_some_iff.mp renewed
    rw [← same]
    exact entryInt found
  · cases all

/- The maximum of the loggers, from a first value on. -/
theorem maxOfLoggers (loggers : List Logger) (first : Int) : ∃ max, loggers.foldl (fun max l =>
      if max < l.moduleEntry.maxLenOfOneRecord then l.moduleEntry.maxLenOfOneRecord else max) first = max ∧ first ≤ max ∧
    (∀ l ∈ loggers, l.moduleEntry.maxLenOfOneRecord ≤ max) ∧
    ∀ bound, first < bound → (∀ l ∈ loggers, l.moduleEntry.maxLenOfOneRecord < bound) → max < bound := by
  induction loggers generalizing first with
  | nil => exact ⟨first,rfl,Int.le_refl _,fun l mem => absurd mem List.not_mem_nil,fun bound low _ => low⟩
  | cons l loggers ih =>
    rw [List.foldl_cons]
    obtain ⟨max,same,low,most,least⟩ := ih
      (if first < l.moduleEntry.maxLenOfOneRecord then l.moduleEntry.maxLenOfOneRecord else first)
    refine ⟨max,same,?_,fun l' mem => ?_,fun bound small all =>
      least bound ?_ fun l' mem => all l' (List.mem_cons_of_mem l mem)⟩
    · split at low <;> omega
    · rcases List.mem_cons.mp mem with rfl | later
      · split at low <;> omega
      · exact most l' later
    · have here := all l List.mem_cons_self
      split <;> assumption

/- The array has a place more than the longest record. -/
theorem buildCovers (ints : Ints m) (did : m.buildRecordBuffer = some m') : m'.loggers = m.loggers ∧ Ints m' ∧
    ∀ l ∈ m.loggers, 1 ≤ l.moduleEntry.maxLenOfOneRecord → l.moduleEntry.maxLenOfOneRecord + 1 ≤ m'.logRecord.length := by
  obtain ⟨max,same,low,most,least⟩ := maxOfLoggers m.loggers m.maxLenOfOneRecord
  have small := least 0x80000000 ints.1 ints.2
  unfold buildRecordBuffer at did
  simp only [same] at did
  split at did
  · cases did
  · rename_i size
    cases Option.some.inj did
    refine ⟨rfl,⟨?_,ints.2⟩,fun l mem positive => ?_⟩
    · simp only
      omega
    · have below := most l mem
      have whole : (max + 1).bmod 0x100000000 = max + 1 ∨ (max + 1).bmod 0x100000000 < 0 := by
        by_cases top : max + 1 < 0x80000000
        · exact .inl (Int.bmod_eq_of_le (by omega) (by omega))
        · refine .inr ?_
          have last : max + 1 = 0x80000000 := by omega
          rw [last]
          decide
      rcases whole with whole | negative
      · simp only [List.length_replicate,whole]
        omega
      · exact absurd negative size

theorem loadCovers {ini : Dictionary} (ints : Ints m) (did : m.loadConfig (some ini) = some m') : Ints m' ∧
    ∀ l ∈ m'.loggers, 1 ≤ l.moduleEntry.maxLenOfOneRecord → l.moduleEntry.maxLenOfOneRecord + 1 ≤ m'.logRecord.length := by
  obtain ⟨m₁,applied,built⟩ := Option.bind_eq_some_iff.mp did
  obtain ⟨max,lens⟩ := applyConfigKeeps applied
  have ints₁ : Ints m₁ := ⟨by rw [max]; exact ints.1,lens⟩
  obtain ⟨same,ints',covers⟩ := buildCovers ints₁ built
  exact ⟨ints',by rw [same]; exact covers⟩

theorem putLength {buf buf' s : Str} {i : Int} (did : put buf i s = some buf') : buf'.length = buf.length := by
  unfold put at did
  split at did
  · rename_i inside
    cases Option.some.inj did
    simp only [List.length_append,List.length_take,List.length_drop]
    omega
  · cases did

theorem snprintfLength {buf buf' s : Str} {i size : Int} (did : snprintf buf i size s = some buf') : buf'.length = buf.length := by
  unfold snprintf at did
  simp only at did
  split at did
  · cases Option.some.inj did
    rfl
  · exact putLength did

theorem outputRecordKeeps {buf : Str} {len : Int} {output : Option Str} (did : m.outputRecord buf len = some (output,m')) :
    m' = { m with logRecord := m'.logRecord } ∧ m'.logRecord.length = buf.length := by
  obtain ⟨buf₁,first,did⟩ := Option.bind_eq_some_iff.mp did
  obtain ⟨buf₂,second,same⟩ := Option.map_eq_some_iff.mp did
  cases same
  exact ⟨rfl,(putLength second).trans (putLength first)⟩

/- A record changes the characters of the array. -/
theorem logKeeps {output : Option Str} (did : m.log l lt stamp message = some (output,m')) :
    m' = { m with logRecord := m'.logRecord } ∧ m'.logRecord.length = m.logRecord.length := by
  unfold Manager.log at did
  split at did
  · cases Option.some.inj did
    exact ⟨rfl,rfl⟩
  · obtain ⟨buf,first,did⟩ := Option.bind_eq_some_iff.mp did
    have size := snprintfLength first
    simp only at did
    generalize (if l.moduleEntry.maxLenOfOneRecord < ((header stamp lt l.moduleName).length : Int) then
      l.moduleEntry.maxLenOfOneRecord - 1 else ((header stamp lt l.moduleName).length : Int)) = len at did
    split at did
    · obtain ⟨buf₁,second,did⟩ := Option.bind_eq_some_iff.mp did
      have size' := (snprintfLength second).trans size
      split at did
      · cases Option.some.inj did
        exact ⟨rfl,size'⟩
      · obtain ⟨same,length⟩ := outputRecordKeeps did
        exact ⟨same,length.trans size'⟩
    · obtain ⟨same,length⟩ := outputRecordKeeps did
      exact ⟨same,length.trans size⟩

theorem updateInts (change : Option (Option Dictionary)) (ints : Ints m) (did : m.updateConfig change = some m') : Ints m' := by
  cases change with
  | none =>
    cases Option.some.inj did
    exact ints
  | some ini =>
    cases ini with
    | none =>
      cases Option.some.inj did
      exact ints
    | some ini => exact (loadCovers ints did).1

theorem stepInts {op : Op} (ints : Ints m) (did : step m op = some m') : Ints m' := by
  cases op with
  | getLogger moduleName =>
    unfold step getLoggerI at did
    simp only at did
    split at did
    · cases Option.some.inj did
      exact ints
    · obtain ⟨entry,found,same⟩ := Option.map_eq_some_iff.mp did
      cases same
      refine ⟨ints.1,fun l mem => ?_⟩
      rcases List.mem_append.mp mem with old | new
      · exact ints.2 l old
      · cases List.mem_singleton.mp new
        exact entryInt found
  | init ini => exact updateInts (some ini) ints did
  | log change logger lt stamp message =>
    obtain ⟨m₁,updated,did⟩ := Option.bind_eq_some_iff.mp did
    obtain ⟨l,_,did⟩ := Option.bind_eq_some_iff.mp did
    obtain ⟨⟨output,m₂⟩,logged,same⟩ := Option.map_eq_some_iff.mp did
    cases same
    have ints₁ := updateInts change ints updated
    rw [(logKeeps logged).1]
    exact ints₁

theorem runInts {ops : List Op} (ran : run step start ops = some m) : Ints m :=
  alwaysAtEnd (alwaysInvariant (fun _ _ _ ints did => stepInts ints did)
    ⟨by decide,fun l mem => absurd mem List.not_mem_nil⟩ ops) ran

/- The calls after which the array is another. -/
def Op.loads : Op → Bool
  | .getLogger _ => false
  | .init ini => ini.isSome
  | .log change _ _ _ _ => change.any Option.isSome

/- Until the next reload the loggers stay as they are, and so does the array's length. -/
theorem quietStep {op : Op} (quiet : op.loads = false) (did : step m op = some m') :
    m.loggers <+: m'.loggers ∧ m'.logRecord.length = m.logRecord.length := by
  cases op with
  | getLogger moduleName =>
    unfold step getLoggerI at did
    simp only at did
    split at did
    · cases Option.some.inj did
      exact ⟨List.prefix_rfl,rfl⟩
    · obtain ⟨entry,_,same⟩ := Option.map_eq_some_iff.mp did
      cases same
      exact ⟨List.prefix_append _ _,rfl⟩
  | init ini =>
    cases ini with
    | none =>
      cases Option.some.inj did
      exact ⟨List.prefix_rfl,rfl⟩
    | some ini => cases quiet
  | log change logger lt stamp message =>
    obtain ⟨m₁,updated,did⟩ := Option.bind_eq_some_iff.mp did
    obtain ⟨l,_,did⟩ := Option.bind_eq_some_iff.mp did
    obtain ⟨⟨output,m₂⟩,logged,same⟩ := Option.map_eq_some_iff.mp did
    cases same
    obtain ⟨record,length⟩ := logKeeps logged
    have kept : m₁.loggers = m.loggers ∧ m₁.logRecord = m.logRecord := by
      cases change with
      | none =>
        cases Option.some.inj updated
        exact ⟨rfl,rfl⟩
      | some ini =>
        cases ini with
        | none =>
          cases Option.some.inj updated
          exact ⟨rfl,rfl⟩
        | some ini => cases quiet
    rw [kept.2] at length
    have same : m₂.loggers = m.loggers := (congrArg Manager.loggers record).trans kept.1
    exact ⟨same ▸ List.prefix_rfl,length⟩

theorem quietRun {ops : List Op} (quiet : ∀ op ∈ ops, op.loads = false) (ran : run step m ops = some m') :
    m.loggers <+: m'.loggers ∧ m'.logRecord.length = m.logRecord.length := by
  induction ops generalizing m with
  | nil =>
    cases Option.some.inj ran
    exact ⟨List.prefix_rfl,rfl⟩
  | cons op ops ih =>
    obtain ⟨m₁,first,rest⟩ := Option.bind_eq_some_iff.mp ran
    obtain ⟨before,length⟩ := quietStep (quiet op List.mem_cons_self) first
    obtain ⟨after,length'⟩ := ih (fun op mem => quiet op (List.mem_cons_of_mem _ mem)) rest
    exact ⟨before.trans after,length'.trans length⟩

/- A logger that was there when the array was built has room for its records as long as the
array stays. -/
theorem builtHasRoom {before after : List Op} {ini : Dictionary} {m₀ m₁ : Manager} (ran : run step start before = some m₀)
    (loaded : m₀.loadConfig (some ini) = some m₁) (quiet : ∀ op ∈ after, op.loads = false)
    (ran' : run step m₁ after = some m) (mem : l ∈ m₁.loggers) (positive : 1 ≤ l.moduleEntry.maxLenOfOneRecord) (p n : Nat)
    (ret : Int) : Fits m.logRecord.length l.moduleEntry.maxLenOfOneRecord.toNat p n ret ↔
      p ≠ l.moduleEntry.maxLenOfOneRecord.toNat ∧ (0 ≤ ret →
        n ≠ l.moduleEntry.maxLenOfOneRecord.toNat - min p (l.moduleEntry.maxLenOfOneRecord.toNat - 1)) := by
  have covers := (loadCovers (runInts ran) loaded).2 l mem positive
  rw [← (quietRun quiet ran').2] at covers
  constructor
  · exact fun fits => ⟨fits.header,fits.message⟩
  · rintro ⟨header,message⟩
    refine ⟨header,message,?_⟩
    split <;> omega

end Runs

/- update_config is the first part of the call, the record the second. -/
theorem recordsStayInside {ops : List Op} {m m' : Manager} (ran : run step start ops = some m)
    (change : Option (Option Dictionary)) (updated : m.updateConfig change = some m') {l : Logger} (mem : l ∈ m'.loggers)
    (positive : 1 ≤ l.moduleEntry.maxLenOfOneRecord) (lt : BitVec 32) (stamp : Stamp) (message : Message)
    (clean : nul ∉ header stamp lt l.moduleName ++ message.text) : KeepsRecord m' l lt stamp message ↔
      (l.shutdown || !l.enableFor lt) = true ∨
      Fits m'.logRecord.length l.moduleEntry.maxLenOfOneRecord.toNat (header stamp lt l.moduleName).length
        message.text.length message.ret := by
  have small := (updateInts change (runInts ran) updated).2 l mem
  exact keepsRecordIff _ (by omega) (by omega) (Int.toNat_of_nonneg (by omega)).symm clean

/- root with records of 64, after init. -/
def shortConfig : Dictionary :=
  [("modules:root.__type__".toList,"DEBUG".toList),("modules:root.__max_len_of_one_record__".toList,"64".toList)]

def rootLogger : Logger := ⟨"root".toList,⟨4,64,[]⟩⟩

def shortManager : Manager := ⟨[rootLogger],511,List.replicate 513 nul,some shortConfig⟩

theorem shortRun : run step start [.getLogger "root".toList,.init (some shortConfig)] = some shortManager := rfl

def noon : Stamp := ⟨"2026-01-01 12:00:00".toList,0,1⟩

theorem shortRecord : KeepsRecord shortManager rootLogger 4 noon ⟨"started".toList,false⟩ := by
  refine (recordsStayInside shortRun none rfl List.mem_cons_self (by decide) 4 noon ⟨"started".toList,false⟩
    (by decide)).mpr (.inr ⟨by decide,by decide,?_⟩)
  simp only [shortManager,List.length_replicate]
  decide

/- The header has 46 characters, the message the other 18: a terminator stands before the newline. -/
theorem exactRecord : ¬ ∀ (ops : List Op) (m m' : Manager) (change : Option (Option Dictionary)) (l : Logger)
    (lt : BitVec 32) (stamp : Stamp) (message : Message), run step start ops = some m → m.updateConfig change = some m' →
    l ∈ m'.loggers → 1 ≤ l.moduleEntry.maxLenOfOneRecord → nul ∉ header stamp lt l.moduleName ++ message.text →
    KeepsRecord m' l lt stamp message := by
  intro claim
  have kept := claim _ _ shortManager none rootLogger 4 noon ⟨"connection refused".toList,false⟩ shortRun rfl
    List.mem_cons_self (by decide) (by decide)
  rcases (keepsRecordIff 64 (by decide) (by decide) rfl (by decide)).mp kept with silent | fits
  · exact absurd silent (by decide)
  · exact absurd rfl (fits.message (by decide))

end CuteNdk.Log
