import CuteNdk.HttpClient
import Mathlib.Data.List.Nodup

/-! parse_params against the pairs of a query. It takes the first place that reads like a name
and its '='; only the character in front of it says whether a pair starts there. -/
namespace CuteNdk.HttpParams
open Lib.CString HttpParser HttpClient

structure Pair where
  name : Str
  value : Str
  nameInPair : '&' ∉ name
  noEqual : '=' ∉ name
  valueInPair : '&' ∉ value

def Pair.text (p : Pair) : Str := p.name ++ '=' :: p.value

/- The text behind the '?'. -/
def query : List Pair → Str
  | [] => []
  | p :: ps => p.text ++ if ps.isEmpty then [] else '&' :: query ps

/- The first place in a text that reads key: the character in front of it and what follows it. -/
def hitAfter (c : Char) (key : Str) : Str → Option (Char × Str)
  | [] => if key = [] then some (c,[]) else none
  | d :: s => if key.isPrefixOf (d :: s) then some (c,(d :: s).drop key.length) else hitAfter d key s

/- The same in the pairs in front of the one of that name, up to the end of the pair. -/
def shadow (name : Str) : List Pair → Option (Char × Str)
  | [] => none
  | p :: ps => if p.name = name then none else (hitAfter '&' (name ++ ['=']) p.text).or (shadow name ps)

section Search
variable {key s post : Str} {c b : Char}

theorem hitSearch (c : Char) : strstr s key = none ∧ hitAfter c key s = none ∨
    ∃ b rest, strstr s key = some rest ∧ hitAfter c key s = some (b,rest.drop key.length) ∧
      charAt (c :: s) ((c :: s).length - rest.length - 1) = b := by
  induction s generalizing c with
  | nil =>
    unfold strstr hitAfter
    cases Decidable.em (key = []) with
    | inl empty =>
      rw [if_pos empty,if_pos empty,empty]
      exact .inr ⟨c,[],rfl,rfl,rfl⟩
    | inr some_ =>
      rw [if_neg some_,if_neg some_]
      exact .inl ⟨rfl,rfl⟩
  | cons d s ih =>
    unfold strstr hitAfter
    cases Decidable.em (key.isPrefixOf (d :: s) = true) with
    | inl here =>
      rw [if_pos here,if_pos here]
      refine .inr ⟨c,d :: s,rfl,rfl,?_⟩
      rw [List.length_cons,Nat.add_sub_cancel_left]
      rfl
    | inr other =>
      rw [if_neg other,if_neg other]
      rcases ih d with none_ | ⟨b,rest,hit,found,before⟩
      · exact .inl none_
      · refine .inr ⟨b,rest,hit,found,?_⟩
        have short := (strstrFound hit).2.length_le
        have step : (c :: d :: s).length - rest.length - 1 = (d :: s).length - rest.length - 1 + 1 := by
          rw [List.length_cons,List.length_cons]
          omega
        rw [step,← before]
        rfl

/- param takes the hit where the character in front of it is '?' or '&'. -/
theorem paramHit (s key : Str) : param ('?' :: s) key =
    (hitAfter '?' key s).bind fun hit => if hit.1 ≠ '?' ∧ hit.1 ≠ '&' then none else some hit.2 := by
  unfold param
  rcases @hitSearch key s '?' with ⟨none_,no⟩ | ⟨b,rest,hit,found,before⟩
  · rw [List.tail_cons,none_,no]
    rfl
  · rw [List.tail_cons,hit,found]
    simp only [before,Option.bind_some]

/- What a pair is divided from the next by is in no key. -/
theorem hitDivide (some_ : key ≠ []) (other : '&' ∉ key) (c : Char) :
    hitAfter c key (s ++ '&' :: post) =
      ((hitAfter c key s).map fun hit => (hit.1,hit.2 ++ '&' :: post)).or (hitAfter '&' key post) := by
  induction s generalizing c with
  | nil =>
    rw [List.nil_append]
    conv => lhs; unfold hitAfter
    conv => rhs; unfold hitAfter
    rw [prefixSkip some_ other,if_neg some_,if_neg Bool.false_ne_true]
    cases post <;> rfl
  | cons d s ih =>
    have same : key.isPrefixOf (d :: s ++ '&' :: post) = key.isPrefixOf (d :: s) := prefixInside other
    rw [List.cons_append] at same ⊢
    conv => lhs; unfold hitAfter
    rw [same]
    cases here : key.isPrefixOf (d :: s) with
    | true =>
      have short := (List.isPrefixOf_iff_prefix.mp here).length_le
      have first : hitAfter c key (d :: s) = some (c,(d :: s).drop key.length) := if_pos here
      rw [first,if_pos rfl,← List.cons_append,List.drop_append_of_le_length short]
      rfl
    | false =>
      have later : hitAfter c key (d :: s) = hitAfter d key s := if_neg (Bool.eq_false_iff.mp here)
      rw [later,if_neg Bool.false_ne_true]
      exact ih d

theorem hitLetters (found : hitAfter c key s = some (b,post)) : b ∈ c :: s ∧ ∀ d ∈ post, d ∈ s := by
  induction s generalizing c with
  | nil =>
    unfold hitAfter at found
    split at found
    · cases Option.some.inj found
      exact ⟨List.mem_cons_self,fun d no => by cases no⟩
    · cases found
  | cons d s ih =>
    unfold hitAfter at found
    split at found
    · cases Option.some.inj found
      exact ⟨List.mem_cons_self,fun e mem => List.mem_of_mem_drop mem⟩
    · obtain ⟨before,behind⟩ := ih found
      exact ⟨List.mem_cons_of_mem c before,fun e mem => List.mem_cons_of_mem d (behind e mem)⟩

end Search

section Pairs
variable {name : Str}

theorem pairKey {p : Pair} (noEqual : '=' ∉ name) (here : (name ++ ['=']).isPrefixOf p.text = true) : p.name = name := by
  obtain ⟨t,same⟩ := List.isPrefixOf_iff_prefix.mp here
  unfold Pair.text at same
  rw [List.append_assoc,List.singleton_append] at same
  calc p.name = (p.name ++ '=' :: p.value).takeWhile (fun c => c != '=') := (takeFresh p.noEqual).symm
    _ = (name ++ '=' :: t).takeWhile (fun c => c != '=') := by rw [same]
    _ = name := takeFresh noEqual

theorem textInPair (p : Pair) : '&' ∉ p.text := by
  intro mem
  rcases List.mem_append.mp mem with name | rest
  · exact p.nameInPair name
  · rcases List.mem_cons.mp rest with no | value
    · exact absurd no (by decide)
    · exact p.valueInPair value

/- The named pair is hit where it starts. -/
theorem namedHit {p : Pair} (named : p.name = name) (c : Char) : hitAfter c (name ++ ['=']) p.text = some (c,p.value) := by
  have first : p.text = name ++ ['='] ++ p.value := by
    unfold Pair.text
    rw [named,List.append_assoc,List.singleton_append]
  rw [first]
  cases whole : name ++ ['='] ++ p.value with
  | nil =>
    have no := congrArg List.length whole
    rw [List.length_append,List.length_append] at no
    cases Nat.eq_zero_of_add_eq_zero_right no
  | cons d s =>
    have here : (name ++ ['=']).isPrefixOf (d :: s) = true := whole ▸ List.isPrefixOf_iff_prefix.mpr (List.prefix_append _ _)
    unfold hitAfter
    rw [if_pos here,← whole,List.drop_left]

/- Another is hit in its middle, if at all. -/
theorem otherHit {p : Pair} (noEqual : '=' ∉ name) (other : p.name ≠ name) (c : Char) :
    hitAfter c (name ++ ['=']) p.text = hitAfter '&' (name ++ ['=']) p.text ∧
      ∀ hit ∈ hitAfter '&' (name ++ ['=']) p.text, hit.1 ≠ '&' ∧ '&' ∉ hit.2 := by
  have no := mt (pairKey (p := p) noEqual) other
  have inPair := textInPair p
  cases whole : p.text with
  | nil =>
    have length := congrArg List.length whole
    unfold Pair.text at length
    rw [List.length_append] at length
    cases Nat.eq_zero_of_add_eq_zero_left length
  | cons d s =>
    rw [whole] at no inPair
    have step (c : Char) : hitAfter c (name ++ ['=']) (d :: s) = hitAfter d (name ++ ['=']) s := if_neg no
    rw [step c,step '&']
    refine ⟨rfl,fun hit found => ?_⟩
    obtain ⟨before,behind⟩ := hitLetters found
    exact ⟨fun same => inPair (same ▸ before),fun mem => inPair (List.mem_cons_of_mem d (behind '&' mem))⟩

/- Where the search for a name ends: in the pair of that name or in one before it. -/
theorem queryHit {ps : List Pair} {t : Pair} {c : Char} (noEqual : '=' ∉ name) (inPair : '&' ∉ name)
    (distinct : (ps.map Pair.name).Nodup) (mem : t ∈ ps) (named : t.name = name) (starts : c = '?' ∨ c = '&') :
    ∃ b w rest, hitAfter c (name ++ ['=']) (query ps) = some (b,w ++ rest) ∧ (∀ d ∈ rest.head?, d = '&') ∧ '&' ∉ w ∧
      (shadow name ps = none ∧ (b = '?' ∨ b = '&') ∧ w = t.value ∨ shadow name ps = some (b,w) ∧ b ≠ '&') := by
  have some_ : name ++ ['='] ≠ [] := List.append_ne_nil_of_right_ne_nil _ (List.cons_ne_nil _ _)
  have fresh : '&' ∉ name ++ ['='] := fun mem => by
    rcases List.mem_append.mp mem with mem | no
    · exact inPair mem
    · exact absurd no (by decide)
  induction ps generalizing c with
  | nil => cases mem
  | cons p ps ih =>
    obtain ⟨once,distinct'⟩ := List.nodup_cons.mp distinct
    cases Decidable.em (p.name = name) with
    | inl same =>
      have first : t = p := by
        refine (List.mem_cons.mp mem).resolve_right fun later => once ?_
        rw [same,← named]
        exact List.mem_map_of_mem later
      have none_ : shadow name (p :: ps) = none := if_pos same
      refine ⟨c,t.value,if ps.isEmpty then [] else '&' :: query ps,?_,fun d head => ?_,t.valueInPair,.inl ⟨none_,starts,rfl⟩⟩
      · rw [query]
        cases ps with
        | nil => rw [List.isEmpty_nil,if_pos rfl,List.append_nil,List.append_nil,namedHit same,first]
        | cons q qs =>
          rw [List.isEmpty_cons,if_neg Bool.false_ne_true,hitDivide some_ fresh,namedHit same,first]
          rfl
      · cases ps with
        | nil => cases head
        | cons q qs => exact (Option.some.inj head).symm
    | inr other =>
      have later : t ∈ ps := (List.mem_cons.mp mem).resolve_left fun same => other (same ▸ named)
      have more : ps.isEmpty = false := by
        cases ps with
        | nil => cases later
        | cons => rfl
      have passed : shadow name (p :: ps) = (hitAfter '&' (name ++ ['=']) p.text).or (shadow name ps) := if_neg other
      obtain ⟨start,inside⟩ := otherHit noEqual other c
      rw [query,more,if_neg Bool.false_ne_true,hitDivide some_ fresh,start,passed]
      cases hit : hitAfter '&' (name ++ ['=']) p.text with
      | none => exact ih distinct' later (.inr rfl)
      | some found =>
        obtain ⟨b,w⟩ := found
        obtain ⟨before,behind⟩ := inside (b,w) hit
        exact ⟨b,w,'&' :: query ps,rfl,fun d head => (Option.some.inj head).symm,behind,.inr ⟨rfl,before⟩⟩

end Pairs

/- Nothing in front of the pair reads like its name, or what does follows a '?' and is right as well. -/
def Clear (ps : List Pair) (name : Str) (Right : Str → Prop) : Prop := ∀ hit ∈ shadow name ps, hit.1 = '?' ∧ Right hit.2

theorem clearFinds {ps : List Pair} {t : Pair} {name : Str} {Takes Right : Str → Prop} (noEqual : '=' ∉ name) (inPair : '&' ∉ name)
    (distinct : (ps.map Pair.name).Nodup) (mem : t ∈ ps) (named : t.name = name) (right : Right t.value)
    (cut : ∀ w rest, '&' ∉ w → (∀ d ∈ rest.head?, d = '&') → (Takes (w ++ rest) ↔ Right w)) :
    (∃ p, param ('?' :: query ps) (name ++ ['=']) = some p ∧ Takes p) ↔ Clear ps name Right := by
  obtain ⟨b,w,rest,hit,ends,whole,either⟩ := queryHit noEqual inPair distinct mem named (.inl rfl)
  have taken := cut w rest whole ends
  rw [paramHit,hit]
  simp only [Option.bind_some]
  unfold Clear
  rcases either with ⟨none_,starts,value⟩ | ⟨some_,middle⟩
  · rw [none_,if_neg fun both => starts.elim both.1 both.2]
    refine iff_of_true ⟨w ++ rest,rfl,taken.mpr ?_⟩ fun hit no => by cases no
    rw [value]
    exact right
  · rw [some_]
    simp only [Option.mem_some_iff,forall_eq']
    cases Decidable.em (b = '?') with
    | inl mark =>
      rw [if_neg fun both => both.1 mark]
      refine ⟨fun ⟨p,same,takes⟩ => ⟨mark,taken.mp ?_⟩,fun ⟨_,good⟩ => ⟨w ++ rest,rfl,taken.mpr good⟩⟩
      rw [Option.some.inj same]
      exact takes
    | inr other =>
      rw [if_pos ⟨other,middle⟩]
      exact iff_of_false (fun ⟨p,no,_⟩ => by cases no) fun both => other both.1

def bwTwo : Pair := ⟨['b','w'],['2'],by decide,by decide,by decide⟩
def urlA : Pair := ⟨['u','r','l'],['a'],by decide,by decide,by decide⟩
def tOne : Pair := ⟨['t'],['1'],by decide,by decide,by decide⟩
def mybwOne : Pair := ⟨['m','y','b','w'],['1'],by decide,by decide,by decide⟩
def tBw : Pair := ⟨['t'],['?','b','w','=','1'],by decide,by decide,by decide⟩

theorem clearOf {ps : List Pair} {name : Str} {Right : Str → Prop} (none_ : shadow name ps = none) : Clear ps name Right := by
  intro hit no
  rw [none_] at no
  cases no

end CuteNdk.HttpParams
