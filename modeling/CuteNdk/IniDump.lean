import CuteNdk.IniLine
import CuteNdk.IniLoad

/-! iniparser_dump_ini: what it writes is read back by iniparser_load. A null value comes back as
an empty text, and the entry of a section is null. -/
namespace CuteNdk.Ini
open Lib.CString

section Strip
variable {s t blanks : Str}

theorem rstripSelf : rstrip s = s ↔ ∀ c ∈ s.getLast?, isspace c = false := by
  unfold rstrip
  rw [List.rdropWhile_eq_self_iff]
  cases s using List.reverseRecOn with
  | nil => simp
  | append_singleton s c => simp

theorem lstripSelf : s.dropWhile isspace = s ↔ ∀ c ∈ s.head?, isspace c = false := by
  rw [List.dropWhile_eq_self_iff]
  cases s <;> simp

theorem rstripBlanks (blank : ∀ c ∈ blanks, isspace c = true) : rstrip (s ++ blanks) = rstrip s := by
  induction blanks using List.reverseRecOn with
  | nil => rw [List.append_nil]
  | append_singleton blanks c ih =>
    have space : isspace c = true := blank c (by simp)
    unfold rstrip
    rw [← List.append_assoc,List.rdropWhile_concat_pos _ _ _ space]
    exact ih fun c mem => blank c (List.mem_append_left _ mem)

theorem stripSelf : strstrip s = s ↔ (∀ c ∈ s.head?, isspace c = false) ∧ ∀ c ∈ s.getLast?, isspace c = false := by
  rw [← lstripSelf,← rstripSelf]
  unfold strstrip
  constructor
  · intro same
    have front : s.dropWhile isspace = s := by
      have less : s.length ≤ (s.dropWhile isspace).length := by
        calc s.length = (rstrip (s.dropWhile isspace)).length := by rw [same]
          _ ≤ (s.dropWhile isspace).length := (List.rdropWhile_prefix isspace _).length_le
      exact (List.dropWhile_suffix isspace).eq_of_length_le less
    exact ⟨front,by rw [front] at same; exact same⟩
  · rintro ⟨front,back⟩
    rw [front,back]

/- A text behind one that has no blank in front. -/
theorem stripHead (front : ∀ c ∈ s.head?, isspace c = false) : strstrip s = rstrip s := by
  unfold strstrip
  rw [lstripSelf.2 front]

end Strip

/- The entries of a section. -/
def keysOf (d : Dictionary) (secname : Str) : List (Str × Option Str) :=
  d.keys.filter fun e => (secname ++ [':']).isPrefixOf e.1

def entryLine (key value : Str) : Str := pad30 key ++ " = ".toList ++ value

/- The lines of a section. -/
def sectionLines (d : Dictionary) (secname : Str) : List (List Str) :=
  [[]] :: ['[' :: secname ++ [']']] ::
    (keysOf d secname).map fun e => [entryLine (e.1.drop (secname.length + 1)) (e.2.getD [])]

def dumpLines (d : Dictionary) : List (List Str) := d.sections.flatMap (sectionLines d) ++ [[[]]]

/- A name of a section that is read as it is written. -/
structure SectionName (secname : Str) : Prop where
  some_ : secname ≠ []
  lower : strlwc secname = secname
  stripped : strstrip secname = secname
  plain : ∀ c ∈ secname, c ≠ '\n' ∧ c ≠ nul ∧ c ≠ ']'
  short : secname.length ≤ 1019

/- A key and a value that are read as they are written. -/
structure Entry (secname key value : Str) : Prop where
  some_ : key ≠ []
  lower : strlwc key = key
  stripped : strstrip key = key
  keyText : ∀ c ∈ key, c ≠ '\n' ∧ c ≠ nul ∧ c ≠ '='
  head : key.head? ≠ some '#' ∧ key.head? ≠ some '['
  valueText : ∀ c ∈ value, c ≠ '\n' ∧ c ≠ nul ∧ c ≠ ';' ∧ c ≠ '#'
  blanks : strstrip value = value
  quotes : value.head? ≠ some '"' ∧ value.head? ≠ some (Char.ofNat 39)
  ends : value.getLast? ≠ some '\\'
  room : secname.length + 1 + key.length ≤ asciiLineSz
  short : (entryLine key value).length ≤ 1021

section Lines
variable {secname key value : Str} {m : Meaning}

/- The line of an entry as it goes to iniparser_line. -/
theorem entryLogical (h : Entry secname key value) :
    ∃ r, logical [entryLine key value] = (pad30 key ++ [' ']) ++ '=' :: r ∧ r.dropWhile isspace = value ∧
      (r = [] ∨ r = ' ' :: value ∧ value ≠ []) := by
  have text : entryLine key value = (pad30 key ++ [' ']) ++ '=' :: ' ' :: value := by
    unfold entryLine
    simp
  have one : [entryLine key value].flatten = entryLine key value := by simp
  unfold logical
  rw [one,text]
  cases empty : value with
  | nil =>
    refine ⟨[],?_,rfl,.inl rfl⟩
    have blank : ∀ c ∈ [' '], isspace c = true := List.forall_mem_singleton.2 rfl
    have split : (pad30 key ++ [' ']) ++ ['=',' '] = ((pad30 key ++ [' ']) ++ ['=']) ++ [' '] := by simp
    rw [split,rstripBlanks blank]
    exact List.rdropWhile_concat_neg _ _ _ (by decide)
  | cons c cs =>
    have bounds := stripSelf.1 h.blanks
    rw [empty] at bounds
    refine ⟨' ' :: c :: cs,rstripSelf.2 ?_,?_,.inr ⟨rfl,List.cons_ne_nil c cs⟩⟩
    · intro d last
      refine bounds.2 d ?_
      simpa using last
    · rw [List.dropWhile_cons_of_pos (by decide)]
      exact lstripSelf.2 bounds.1

theorem entryRead (h : Entry secname key value) (section_ : Str) :
    iniparserLine section_ (logical [entryLine key value]) = .value key value := by
  obtain ⟨r,line,rest,shape⟩ := entryLogical h
  obtain ⟨k,ks,named⟩ := List.exists_cons_of_ne_nil h.some_
  have bounds := stripSelf.1 h.stripped
  have first : (pad30 key ++ [' ']).head? = some k := by
    rw [pad30,named]
    rfl
  have front : ∀ c ∈ (pad30 key ++ [' ']).head?, isspace c = false := by
    intro c mem
    rw [first] at mem
    exact bounds.1 c (by rw [named]; exact mem)
  have blank : ∀ c ∈ List.replicate (30 - key.length) ' ' ++ [' '], isspace c = true := by
    intro c mem
    have space : c = ' ' := by
      rcases List.mem_append.1 mem with mem | mem
      · exact List.eq_of_mem_replicate mem
      · exact List.mem_singleton.1 mem
    rw [space]
    decide
  have key_ : strlwc (strstrip (pad30 key ++ [' '])) = key := by
    rw [stripHead front,pad30,List.append_assoc,rstripBlanks blank,rstripSelf.2 bounds.2]
    exact h.lower
  have whole : strstrip (logical [entryLine key value]) = (pad30 key ++ [' ']) ++ '=' :: r := by
    have front' : ∀ c ∈ ((pad30 key ++ [' ']) ++ '=' :: r).head?, isspace c = false := by
      intro c mem
      refine front c ?_
      rw [first]
      rw [List.head?_append,first] at mem
      exact mem
    rw [line,stripHead front',← line]
    unfold logical
    exact List.rdropWhile_idempotent _ _
  have head : (strstrip (logical [entryLine key value])).head? = some k := by
    rw [whole,List.head?_append,first]
    rfl
  have equals : '=' ∉ pad30 key ++ [' '] := by
    intro mem
    rw [pad30,List.append_assoc] at mem
    rcases List.mem_append.1 mem with mem | mem
    · exact (h.keyText _ mem).2.2 rfl
    · exact absurd (blank _ mem) (by decide)
  have keyHead : key.head? = some k := by
    rw [named]
    rfl
  rw [keyLine (k := pad30 key ++ [' ']) (r := r) (by rw [whole]; simp) (by rw [head,← keyHead]; exact h.head.1)
    (fun both => h.head.2 (by rw [keyHead,← head]; exact both.1)) whole (by simp) equals,key_,rest]
  refine congrArg (LineStatus.value key) ?_
  have unquoted : quoted value = none := by
    unfold quoted
    split
    · next q c cs =>
      refine if_neg fun both => ?_
      rcases both.1 with rfl | rfl
      · exact h.quotes.1 rfl
      · exact h.quotes.2 rfl
    · rfl
  have bare : uncommented value = value :=
    List.takeWhile_eq_self_iff.2 fun c mem => by simpa using (h.valueText c mem).2.2
  unfold valueText
  rw [unquoted,Option.getD_none,bare,h.blanks]
  refine if_neg ?_
  rintro (rfl | rfl)
  · exact h.quotes.1 rfl
  · exact h.quotes.2 rfl

theorem entryFits (h : Entry secname key value) : Fits [entryLine key value] := by
  obtain ⟨r,line,-,shape⟩ := entryLogical h
  refine ⟨?_,?_,?_⟩
  · intro p mem c there
    rw [List.mem_singleton.1 mem] at there
    unfold entryLine pad30 at there
    simp only [List.mem_append] at there
    rcases there with ((there | there) | there) | there
    · exact ⟨(h.keyText c there).1,(h.keyText c there).2.1⟩
    · rw [List.eq_of_mem_replicate there]
      decide
    · exact plainPieces (by decide : [" = ".toList].all _ = true) _ (List.mem_singleton_self _) c there
    · exact ⟨(h.valueText c there).1,(h.valueText c there).2.1⟩
  · simpa using h.short
  · rw [line]
    rcases shape with rfl | ⟨rfl,some_⟩
    · rw [List.getLast?_append]
      exact (by decide : some '=' ≠ some '\\')
    · intro last
      obtain ⟨c,cs,rfl⟩ := List.exists_cons_of_ne_nil some_
      refine h.ends ?_
      simpa using last

theorem emptyFits : Fits [[]] := ⟨plainPieces rfl,by decide,by decide⟩

theorem sectionLogical (secname : Str) : logical ['[' :: secname ++ [']']] = '[' :: secname ++ [']'] := by
  unfold logical
  rw [List.flatten_singleton]
  exact List.rdropWhile_concat_neg _ _ _ (by decide)

theorem sectionFits (h : SectionName secname) : Fits ['[' :: secname ++ [']']] := by
  refine ⟨?_,?_,?_⟩
  · intro p mem c there
    rw [List.mem_singleton.1 mem] at there
    simp only [List.cons_append,List.mem_cons,List.mem_append,List.not_mem_nil,or_false] at there
    rcases there with rfl | there | rfl
    · decide
    · exact ⟨(h.plain c there).1,(h.plain c there).2.1⟩
    · decide
  · have short := h.short
    simp
    omega
  · rw [sectionLogical,List.getLast?_concat]
    decide

theorem sectionRead (h : SectionName secname) (section_ : Str) :
    iniparserLine section_ (logical ['[' :: secname ++ [']']]) = .section_ secname := by
  have whole : strstrip ('[' :: secname ++ [']']) = '[' :: secname ++ [']'] := by
    refine stripSelf.2 ⟨?_,?_⟩
    · intro c first
      cases Option.some.inj first
      decide
    · intro c last
      rw [List.getLast?_concat] at last
      cases last
      decide
  have name : (secname ++ [']']).takeWhile (fun c => c ≠ ']') = secname := by
    rw [List.takeWhile_append_of_pos fun c mem => by simpa using (h.plain c mem).2.2]
    simp
  have scanned : scanSet (fun c => c ≠ ']') (strstrip ('[' :: secname ++ [']'])).tail = some (secname,[']']) := by
    rw [whole]
    have rest : (secname ++ [']']).dropWhile (fun c => c ≠ ']') = [']'] := by
      rw [List.dropWhile_append_of_pos fun c mem => by simpa using (h.plain c mem).2.2]
      rfl
    have some_ := @scanSetSome (fun c => c ≠ ']') (secname ++ [']']) (by rw [name]; exact h.some_)
    rw [name,rest] at some_
    exact some_
  rw [sectionLogical,sectionLine section_ (by rw [whole]; exact List.cons_ne_nil _ _) 
    (by rw [whole]; exact (by decide : some '[' ≠ some '#')) (by rw [whole]; exact ⟨rfl,List.getLast?_concat⟩),scanned]
  simp only [Option.elim_some,h.stripped,h.lower]

end Lines

/- Entries set one after another. -/
def updates (b : Str → Option (Option Str)) (ps : List (Str × Option Str)) : Str → Option (Option Str) :=
  ps.foldl (fun b p => Function.update b p.1 (some p.2)) b

/- The entries that agree with a map are set to what it has. -/
theorem updatesGraph {F : Str → Option (Option Str)} {ps : List (Str × Option Str)} (graph : ∀ p ∈ ps, F p.1 = some p.2)
    (b : Str → Option (Option Str)) (key : Str) :
    updates b ps key = if key ∈ ps.map Prod.fst then F key else b key := by
  induction ps generalizing b with
  | nil => rfl
  | cons p ps ih =>
    have step := ih (fun q mem => graph q (List.mem_cons_of_mem p mem)) (Function.update b p.1 (some p.2))
    have first : updates b (p :: ps) = updates (Function.update b p.1 (some p.2)) ps := rfl
    rw [first,step,List.map_cons]
    by_cases later : key ∈ ps.map Prod.fst
    · rw [if_pos later,if_pos (List.mem_cons_of_mem _ later)]
    · rw [if_neg later]
      by_cases here : key = p.1
      · rw [here,Function.update_self,if_pos List.mem_cons_self,graph p List.mem_cons_self]
      · rw [Function.update_of_ne here,if_neg fun mem => (List.mem_cons.1 mem).elim here later]

section Sections
variable {d : Dictionary} {secname : Str} {m : Meaning}

/- What a section sets. -/
def sectionEntries (d : Dictionary) (secname : Str) : List (Str × Option Str) :=
  (secname,none) :: (keysOf d secname).map fun e => (e.1,some (e.2.getD []))

/- A dictionary whose dump is read as it is written. Each entry with a colon has its section. -/
structure Dumpable (d : Dictionary) : Prop where
  some_ : d.sections ≠ []
  named : ∀ secname ∈ d.sections, SectionName secname
  homed : ∀ e ∈ d.keys, ':' ∈ e.1 → ∃ secname ∈ d.sections, ∃ key, e.1 = secname ++ ':' :: key ∧ Entry secname key (e.2.getD [])

/- The map a dump stands for: a key without a text has an empty one. -/
def dumped (d : Dictionary) (key : Str) : Option (Option Str) :=
  (d.bindings key).map fun v => if ':' ∈ key then some (v.getD []) else none

theorem keyBinding (well : d.Well) {e : Str × Option Str} : e ∈ d.keys ↔ d.bindings e.1 = some e.2 := by
  unfold Dictionary.keys Dictionary.bindings
  rw [Lib.Slots.lookupIff well.distinct,List.mem_filterMap]
  constructor
  · rintro ⟨s,mem,entry⟩
    obtain ⟨i,here⟩ := List.mem_iff_getElem?.1 mem
    exact ⟨i,by rw [Lib.Slots.At,Dictionary.entryAt here,entry]⟩
  · rintro ⟨i,at_⟩
    obtain ⟨s,here,named,valued⟩ := Dictionary.atSlot.1 at_
    exact ⟨s,List.mem_of_getElem? here,by rw [Slot.entry,named,valued]; rfl⟩

theorem sectionKey : secname ∈ d.sections ↔ ':' ∉ secname ∧ ∃ v, (secname,v) ∈ d.keys := by
  unfold Dictionary.sections
  rw [List.mem_map]
  constructor
  · rintro ⟨e,mem,rfl⟩
    obtain ⟨there,plain⟩ := List.mem_filter.1 mem
    exact ⟨by simpa using plain,e.2,there⟩
  · rintro ⟨plain,v,there⟩
    exact ⟨_,List.mem_filter.2 ⟨there,by simpa using plain⟩,rfl⟩

/- A name without a colon is the text in front of the first one. -/
theorem sectionSame {s t : Str} {k l : Str} (plain : ':' ∉ s) (plain' : ':' ∉ t) (same : s ++ ':' :: k = t ++ ':' :: l) :
    s = t ∧ k = l := by
  have front : ∀ {s k : Str}, ':' ∉ s → (s ++ ':' :: k).takeWhile (fun c => c ≠ ':') = s := by
    intro s k plain
    rw [List.takeWhile_append_of_pos fun c mem => by simpa using fun same : c = ':' => plain (same ▸ mem)]
    simp
  have names : s = t := by
    rw [← front (k := k) plain,same,front plain']
  subst names
  exact ⟨rfl,(List.cons.inj (List.append_cancel_left same)).2⟩

theorem keysOfSplit {e : Str × Option Str} (mem : e ∈ keysOf d secname) :
    e ∈ d.keys ∧ ∃ key, e.1 = secname ++ ':' :: key ∧ e.1.drop (secname.length + 1) = key := by
  obtain ⟨there,starts⟩ := List.mem_filter.1 mem
  obtain ⟨key,split⟩ := List.isPrefixOf_iff_prefix.1 starts
  refine ⟨there,key,by rw [← split]; simp,?_⟩
  rw [← split]
  have length : (secname ++ [':']).length = secname.length + 1 := by simp
  rw [← length,List.drop_left]

/- A key of a section that is dumped. -/
theorem keysOfEntry (dumps : Dumpable d) (mine : secname ∈ d.sections) {e : Str × Option Str} (mem : e ∈ keysOf d secname) :
    ∃ key, e.1 = secname ++ ':' :: key ∧ e.1.drop (secname.length + 1) = key ∧ Entry secname key (e.2.getD []) := by
  obtain ⟨there,key,split,rest⟩ := keysOfSplit mem
  obtain ⟨secname',theirs,key',split',entry⟩ := dumps.homed e there (by rw [split]; simp)
  obtain ⟨rfl,rfl⟩ := sectionSame (sectionKey.1 mine).1 (sectionKey.1 theirs).1 (split.symm.trans split')
  exact ⟨key,split,rest,entry⟩

theorem entryMeans {b : Str → Option (Option Str)} {e : Str × Option Str} {key : Str} (split : e.1 = secname ++ ':' :: key)
    (entry : Entry secname key (e.2.getD [])) :
    Meaning.line ⟨secname,b,0⟩ (logical [entryLine key (e.2.getD [])]) =
      some ⟨secname,Function.update b e.1 (some (some (e.2.getD []))),0⟩ := by
  unfold Meaning.line
  rw [entryRead entry]
  simp only [if_neg (Nat.not_lt.2 entry.room),split]

theorem entriesMean (dumps : Dumpable d) (mine : secname ∈ d.sections) {es : List (Str × Option Str)}
    (theirs : ∀ e ∈ es, e ∈ keysOf d secname) (b : Str → Option (Option Str)) :
    meaning ⟨secname,b,0⟩ (es.map fun e => [entryLine (e.1.drop (secname.length + 1)) (e.2.getD [])]) =
      some ⟨secname,updates b (es.map fun e => (e.1,some (e.2.getD []))),0⟩ := by
  induction es generalizing b with
  | nil => rfl
  | cons e es ih =>
    obtain ⟨key,split,rest,entry⟩ := keysOfEntry dumps mine (theirs e List.mem_cons_self)
    have later := ih (fun f mem => theirs f (List.mem_cons_of_mem e mem)) (Function.update b e.1 (some (some (e.2.getD []))))
    unfold meaning at later ⊢
    rw [List.map_cons,List.foldlM_cons,rest]
    simp only [entryMeans split entry]
    exact later

theorem sectionMeans (dumps : Dumpable d) (mine : secname ∈ d.sections) :
    meaning m (sectionLines d secname) = some ⟨secname,updates m.bindings (sectionEntries d secname),0⟩ := by
  have empty : m.line (logical [[]]) = some m := rfl
  have header : m.line (logical ['[' :: secname ++ [']']]) = some ⟨secname,Function.update m.bindings secname (some none),0⟩ := by
    unfold Meaning.line
    rw [sectionRead (dumps.named secname mine)]
  have rest := entriesMean dumps mine (fun e (mem : e ∈ keysOf d secname) => mem) (Function.update m.bindings secname (some none))
  unfold meaning at rest ⊢
  unfold sectionLines
  rw [List.foldlM_cons,empty]
  simp only [Option.bind_eq_bind,Option.bind_some]
  rw [List.foldlM_cons,header]
  exact rest

theorem sectionsMean (dumps : Dumpable d) {secs : List Str} (theirs : ∀ secname ∈ secs, secname ∈ d.sections) (m : Meaning) :
    ∃ m', meaning m (secs.flatMap (sectionLines d)) = some m' ∧ (m.errs = 0 → m'.errs = 0) ∧
      m'.bindings = updates m.bindings (secs.flatMap (sectionEntries d)) := by
  induction secs generalizing m with
  | nil => exact ⟨m,rfl,id,rfl⟩
  | cons secname secs ih =>
    obtain ⟨m',said,errs,bindings⟩ := ih (fun s mem => theirs s (List.mem_cons_of_mem _ mem))
      ⟨secname,updates m.bindings (sectionEntries d secname),0⟩
    refine ⟨m',?_,fun _ => errs rfl,?_⟩
    · have first := sectionMeans (m := m) dumps (theirs secname List.mem_cons_self)
      unfold meaning at said first ⊢
      rw [List.flatMap_cons,List.foldlM_append,first]
      exact said
    · rw [bindings,List.flatMap_cons]
      unfold updates
      rw [List.foldl_append]

theorem dumpFits (dumps : Dumpable d) : ∀ ps ∈ dumpLines d, Fits ps := by
  intro ps mem
  rcases List.mem_append.1 mem with mem | mem
  · obtain ⟨secname,mine,mem⟩ := List.mem_flatMap.1 mem
    rcases List.mem_cons.1 mem with rfl | mem
    · exact emptyFits
    · rcases List.mem_cons.1 mem with rfl | mem
      · exact sectionFits (dumps.named secname mine)
      · obtain ⟨e,there,rfl⟩ := List.mem_map.1 mem
        obtain ⟨key,_,rest,entry⟩ := keysOfEntry dumps mine there
        rw [rest]
        exact entryFits entry
  · rw [List.mem_singleton.1 mem]
    exact emptyFits

/- The dump sets each section and each of its keys, and nothing else. -/
theorem dumpSets (well : d.Well) (dumps : Dumpable d) (key : Str) :
    updates (fun _ => none) (d.sections.flatMap (sectionEntries d)) key = dumped d key := by
  have graph : ∀ p ∈ d.sections.flatMap (sectionEntries d), dumped d p.1 = some p.2 := by
    intro p mem
    obtain ⟨secname,mine,mem⟩ := List.mem_flatMap.1 mem
    unfold dumped
    rcases List.mem_cons.1 mem with rfl | mem
    · obtain ⟨plain,v,there⟩ := sectionKey.1 mine
      rw [(keyBinding well).1 there,Option.map_some,if_neg plain]
    · obtain ⟨e,there,rfl⟩ := List.mem_map.1 mem
      obtain ⟨there,key,split,_⟩ := keysOfSplit there
      rw [(keyBinding well).1 there,Option.map_some,if_pos (by rw [split]; simp)]
  rw [updatesGraph graph]
  split
  · rfl
  · next absent =>
    refine (Option.eq_none_iff_forall_ne_some.2 fun v there => absent ?_).symm
    obtain ⟨w,bound,-⟩ := Option.map_eq_some_iff.1 there
    have mem : (key,w) ∈ d.keys := (keyBinding well).2 bound
    refine List.mem_map.2 ?_
    by_cases colon : ':' ∈ key
    · obtain ⟨secname,mine,rest,split,_⟩ := dumps.homed _ mem colon
      have starts : (key,w) ∈ keysOf d secname :=
        List.mem_filter.2 ⟨mem,List.isPrefixOf_iff_prefix.2 ⟨rest,by rw [split]; simp⟩⟩
      exact ⟨(key,some (w.getD [])),List.mem_flatMap.2
        ⟨secname,mine,List.mem_cons_of_mem _ (List.mem_map.2 ⟨_,starts,rfl⟩)⟩,rfl⟩
    · exact ⟨(key,none),List.mem_flatMap.2 ⟨key,sectionKey.2 ⟨colon,w,mem⟩,List.mem_cons_self⟩,rfl⟩

theorem dumpMeans (well : d.Well) (dumps : Dumpable d) :
    ∃ m, meaning .start (dumpLines d) = some m ∧ m.errs = 0 ∧ m.bindings = dumped d := by
  obtain ⟨m,said,errs,bindings⟩ := sectionsMean dumps (fun secname (mem : secname ∈ d.sections) => mem) .start
  refine ⟨m,?_,errs rfl,by rw [bindings]; exact funext (dumpSets well dumps)⟩
  unfold meaning at said ⊢
  unfold dumpLines
  rw [List.foldlM_append,said]
  rfl

theorem rangeMapM {α β : Type} (xs : List α) {g : Option α → Option β} {f : α → β} (does : ∀ x ∈ xs, g (some x) = some (f x)) :
    (List.range xs.length).mapM (fun i => g xs[i]?) = some (xs.map f) := by
  induction xs with
  | nil => rfl
  | cons x xs ih =>
    have later := ih fun y mem => does y (List.mem_cons_of_mem x mem)
    have behind : ((fun i => g (x :: xs)[i]?) ∘ Nat.succ) = fun i => g xs[i]? := funext fun i => by simp
    rw [List.length_cons,List.range_succ_eq_map,List.mapM_cons,List.mapM_map,behind,later,List.getElem?_cons_zero,
      does x List.mem_cons_self]
    rfl

theorem dumpSectionText (d : Dictionary) (secname : Str) :
    ['\n','['] ++ secname ++ [']','\n'] ++ dumpSection d secname = (sectionLines d secname).flatMap written := by
  have line : ∀ l : Str, written [l] = l ++ ['\n'] := fun l => rfl
  have entries : dumpSection d secname =
      ((keysOf d secname).map fun e => [entryLine (e.1.drop (secname.length + 1)) (e.2.getD [])]).flatMap written := by
    unfold dumpSection keysOf
    induction d.keys with
    | nil => rfl
    | cons e es ih =>
      rw [List.flatMap_cons,List.filter_cons,ih]
      by_cases starts : (secname ++ [':']).isPrefixOf e.1 = true
      · rw [if_pos starts,if_pos starts,List.map_cons,List.flatMap_cons,line,entryLine]
      · rw [if_neg starts,if_neg starts,List.nil_append]
  unfold sectionLines
  rw [List.flatMap_cons,List.flatMap_cons,← entries,line,line]
  simp

theorem dumpText (well : d.Well) (dumps : Dumpable d) : iniparserDumpIni d = some ((dumpLines d).flatMap written) := by
  obtain ⟨vals,keys,_⟩ := Dictionary.wholeIff.1 well.whole
  have some_ : ¬iniparserGetnsec d < 1 := fun none_ =>
    dumps.some_ (List.length_eq_zero_iff.1 (Nat.lt_one_iff.1 none_))
  have sections := rangeMapM d.sections
    (g := fun secname => secname.bind fun secname => if asciiLineSz < secname.length + 1 then none
      else some (['\n','['] ++ secname ++ [']','\n'] ++ dumpSection d secname))
    (f := fun secname => (sectionLines d secname).flatMap written) fun secname mine => by
      have short := (dumps.named secname mine).short
      rw [Option.bind_some,if_neg (by unfold asciiLineSz; omega),dumpSectionText]
  unfold iniparserDumpIni
  rw [if_neg (by simp [vals,keys]),if_neg some_]
  have ends : ((dumpLines d).flatMap written) = (d.sections.map fun secname => (sectionLines d secname).flatMap written).flatten ++ ['\n'] := by
    unfold dumpLines
    rw [List.flatMap_append,List.flatMap_assoc,List.flatMap_def]
    rfl
  rw [ends]
  exact congrArg (Option.map fun sections => sections.flatten ++ ['\n']) sections

end Sections

/- What is dumped is read back: every key has the value it had, and a key without a text has an empty
one. before is the byte in front of line, which the empty lines of the dump come to. -/
theorem dumpLoads {d : Dictionary} (before : Char) (well : d.Well) (dumps : Dumpable d) (blank : before ≠ '\\')
    (few : (dumpLines d).length ≤ 0x8000000) :
    ∃ text d', iniparserDumpIni d = some text ∧ iniparserLoad granted before (some text) = some (some d') ∧ d'.Well ∧
      ∀ key, d'.bindings key = (d.bindings key).map fun v => if ':' ∈ key then some (v.getD []) else none := by
  have loads := loadBegins before [] (dumpFits dumps) (fun _ => blank) few
  rw [List.append_nil] at loads
  obtain ⟨m,said,errs,bindings⟩ := dumpMeans well dumps
  rw [said] at loads
  obtain ⟨s,fuel,loads,there,represents,enough⟩ := loads
  have zero : s.errs = 0 := by
    rw [represents.errs,errs]
    rfl
  refine ⟨_,s.dict,dumpText well dumps,loads.trans ((loadEnd there enough).trans (if_pos zero)),represents.grown.well,fun key => ?_⟩
  rw [represents.bindings,bindings]
  rfl

/- A section with one key. -/
def oneKey : Dictionary :=
  ⟨2,[⟨some ['a'],none,dictionaryHash ['a']⟩,⟨some ['a',':','b'],some ['x'],dictionaryHash ['a',':','b']⟩],true,true,true⟩

theorem oneKeyLoads : ∃ text d', iniparserDumpIni oneKey = some text ∧
    iniparserLoad granted 'x' (some text) = some (some d') ∧ d'.bindings ['a',':','b'] = some (some ['x']) := by
  have places : ∀ {i k v}, Lib.Slots.At oneKey.table i k v → (i = 0 ∧ k = ['a']) ∨ (i = 1 ∧ k = ['a',':','b']) := by
    intro i k v at_
    match i with
    | 0 =>
      cases at_
      exact .inl ⟨rfl,rfl⟩
    | 1 =>
      cases at_
      exact .inr ⟨rfl,rfl⟩
    | i + 2 => cases at_
  have well : oneKey.Well := by
    refine ⟨rfl,?_,?_,by decide,by decide,by decide⟩
    · intro s mem k named
      simp only [oneKey,List.mem_cons,List.not_mem_nil,or_false] at mem
      rcases mem with rfl | rfl <;> (cases named; rfl)
    · intro i j k v w first second
      rcases places first with ⟨rfl,rfl⟩ | ⟨rfl,rfl⟩ <;> rcases places second with ⟨rfl,same⟩ | ⟨rfl,same⟩ <;>
        first | rfl | exact absurd same (by decide)
  have dumps : Dumpable oneKey := by
    refine ⟨by decide,?_,?_⟩
    · intro secname mem
      have here : secname = ['a'] := List.mem_singleton.1 mem
      rw [here]
      exact ⟨by decide,by decide,by decide,List.forall_mem_singleton.2 (by decide),by decide⟩
    · intro e mem colon
      have two : e = (['a'],none) ∨ e = (['a',':','b'],some ['x']) := by
        simpa [oneKey,Dictionary.keys,Slot.entry] using mem
      rcases two with rfl | rfl
      · exact absurd colon (by decide)
      · exact ⟨['a'],by decide,['b'],rfl,⟨by decide,by decide,by decide,List.forall_mem_singleton.2 (by decide),by decide,
          List.forall_mem_singleton.2 (by decide),by decide,by decide,by decide,by decide,by decide⟩⟩
  obtain ⟨text,d',dump,loads,_,bindings⟩ := dumpLoads 'x' well dumps (by decide) (by decide)
  exact ⟨text,d',dump,loads,bindings _⟩

end CuteNdk.Ini
