import CuteNdk.IniParser

/-! The lines of an ini file by their grammar: a comment, a section, or a key, the first '=' and a
value. iniparser_line tries six formats of sscanf in turn and comes to the same. -/
namespace CuteNdk.Ini
open Lib.CString

/- The text up to a comment. -/
def uncommented (r : Str) : Str := r.takeWhile fun c => c ≠ ';' ∧ c ≠ '#'

/- The text between two quotes, or from a quote on. Quotes with nothing between them quote nothing. -/
def quoted (r : Str) : Option Str :=
  match r with
  | q :: c :: cs => if (q = '"' ∨ q = Char.ofNat 39) ∧ c ≠ q then some ((c :: cs).takeWhile fun d => d ≠ q) else none
  | _ => none

def emptied (value : Str) : Str := if value = ['"','"'] ∨ value = [Char.ofNat 39,Char.ofNat 39] then [] else value

/- The value a text stands for. -/
def valueText (r : Str) : Str := emptied (strstrip ((quoted r).getD (uncommented r)))

/- The status of a line as the grammar has it. -/
def grammarLine (section_ inputLine : Str) : LineStatus :=
  let line := strstrip inputLine
  let key := line.takeWhile fun c => c ≠ '='
  let rest := line.dropWhile fun c => c ≠ '='
  if line = [] then .empty
  else if line.head? = some '#' then .comment
  else if line.head? = some '[' ∧ line.getLast? = some ']' then
    let name := line.tail.takeWhile fun c => c ≠ ']'
    .section_ (strlwc (strstrip (if name = [] then section_ else name)))
  else if key = [] ∨ rest = [] then .error
  else .value (strlwc (strstrip key)) (valueText (rest.tail.dropWhile isspace))

section Scans
variable {line k r : Str}

theorem scanSetNone {set_ : Char → Bool} {s : Str} : scanSet set_ s = none ↔ s.takeWhile set_ = [] := by
  unfold scanSet
  split <;> simp_all

theorem scanSetSome {set_ : Char → Bool} {s : Str} (some_ : s.takeWhile set_ ≠ []) :
    scanSet set_ s = some (s.takeWhile set_,s.dropWhile set_) := by
  unfold scanSet
  split
  · exact absurd ‹_› some_
  · rfl

/- Where the key ends. -/
theorem scanKeySplit (some_ : k ≠ []) (plain : '=' ∉ k) : scanKey (k ++ '=' :: r) = some (k,'=' :: r) := by
  have all : ∀ c ∈ k, decide (c ≠ '=') = true := fun c mem => by simpa using fun same : c = '=' => plain (same ▸ mem)
  have key : (k ++ '=' :: r).takeWhile (fun c => c ≠ '=') = k := by
    rw [List.takeWhile_append_of_pos all]
    simp
  have rest : (k ++ '=' :: r).dropWhile (fun c => c ≠ '=') = '=' :: r := by
    rw [List.dropWhile_append_of_pos all]
    simp
  unfold scanKey
  rw [scanSetSome (by rw [key]; exact some_),key,rest]
  rfl

theorem scanEqualsSplit (some_ : k ≠ []) (plain : '=' ∉ k) :
    scanEquals (k ++ '=' :: r) = some (k,r.dropWhile isspace) := by
  unfold scanEquals
  rw [scanKeySplit some_ plain]
  rfl

/- Without an '=', and with nothing in front of it, no format matches. -/
theorem scanKeyless (none_ : line.takeWhile (fun c => c ≠ '=') = [] ∨ line.dropWhile (fun c => c ≠ '=') = []) :
    scanEquals line = none ∧ scanBare line = none := by
  have key : scanKey line = none ∨ ∃ k, scanKey line = some (k,[]) := by
    unfold scanKey
    rcases none_ with none_ | none_
    · exact .inl (by rw [scanSetNone.2 none_]; rfl)
    · by_cases some_ : line.takeWhile (fun c => c ≠ '=') = []
      · exact .inl (by rw [scanSetNone.2 some_]; rfl)
      · refine .inr ⟨line.takeWhile fun c => c ≠ '=',?_⟩
        rw [scanSetSome some_,none_]
        rfl
  unfold scanEquals scanBare
  rcases key with key | ⟨k,key⟩
  · rw [key]
    exact ⟨rfl,rfl⟩
  · rw [key]
    exact ⟨rfl,rfl⟩

end Scans

section Values
variable {k r : Str}

/- What a quoted format takes from the text behind the '=' and its blanks. -/
def quotedBy (quote : Char) (s : Str) : Option Str :=
  (literal quote s).bind fun rest => (scanSet (fun c => c ≠ quote) rest).map Prod.fst

theorem quotedByOther {quote q : Char} {cs : Str} (other : q ≠ quote) : quotedBy quote (q :: cs) = none := by
  have none_ : literal quote (q :: cs) = none := if_neg other
  unfold quotedBy
  rw [none_]
  rfl

theorem quotedBySame {quote : Char} {cs : Str} : quotedBy quote (quote :: cs) = (scanSet (fun c => c ≠ quote) cs).map Prod.fst := by
  have rest : literal quote (quote :: cs) = some cs := if_pos rfl
  unfold quotedBy
  rw [rest]
  rfl

theorem scanUntil {quote c : Char} {cs : Str} :
    (scanSet (fun d => d ≠ quote) (c :: cs)).map Prod.fst =
      if c ≠ quote then some ((c :: cs).takeWhile fun d => d ≠ quote) else none := by
  by_cases same : c ≠ quote
  · have some_ : (c :: cs).takeWhile (fun d => d ≠ quote) ≠ [] := by
      rw [List.takeWhile_cons_of_pos (by simpa using same)]
      exact List.cons_ne_nil _ _
    rw [if_pos same,scanSetSome some_]
    rfl
  · rw [if_neg same,scanSetNone.2 (List.takeWhile_cons_of_neg (by simpa using same))]
    rfl

theorem quotedFirst (s : Str) : (quotedBy '"' s).or (quotedBy (Char.ofNat 39) s) = quoted s := by
  have differ : ('"' : Char) ≠ Char.ofNat 39 := by decide
  cases s with
  | nil => rfl
  | cons q cs =>
    cases cs with
    | nil =>
      have none_ : ∀ quote, quotedBy quote [q] = none := by
        intro quote
        by_cases same : q = quote
        · rw [same,quotedBySame]
          rfl
        · exact quotedByOther same
      rw [none_,none_]
      rfl
    | cons c cs =>
      unfold quoted
      by_cases double : q = '"'
      · subst double
        rw [quotedBySame,quotedByOther differ,Option.or_none,scanUntil]
        simp
      · by_cases single : q = Char.ofNat 39
        · subst single
          rw [quotedByOther (Ne.symm differ),Option.none_or,quotedBySame,scanUntil]
          simp
        · rw [quotedByOther double,quotedByOther single]
          simp [double,single]

/- The two quoted formats, one after the other. -/
theorem scanQuotedSplit (some_ : k ≠ []) (plain : '=' ∉ k) :
    (scanQuoted '"' (k ++ '=' :: r)).or (scanQuoted (Char.ofNat 39) (k ++ '=' :: r)) =
      (quoted (r.dropWhile isspace)).map fun v => (k,v) := by
  have by_ : ∀ quote, scanQuoted quote (k ++ '=' :: r) = (quotedBy quote (r.dropWhile isspace)).map fun v => (k,v) := by
    intro quote
    unfold scanQuoted quotedBy
    rw [scanEqualsSplit some_ plain,Option.bind_some,Option.map_bind]
    refine Option.bind_congr fun rest _ => ?_
    rw [Function.comp_apply,Option.map_map]
    rfl
  rw [by_,by_,← quotedFirst]
  cases quotedBy '"' (r.dropWhile isspace) <;> rfl

/- The format with a plain value. -/
theorem scanPlainSplit (some_ : k ≠ []) (plain : '=' ∉ k) :
    scanPlain (k ++ '=' :: r) =
      if uncommented (r.dropWhile isspace) = [] then none else some (k,uncommented (r.dropWhile isspace)) := by
  unfold scanPlain
  rw [scanEqualsSplit some_ plain,Option.bind_some]
  unfold uncommented
  split
  · next none_ => rw [scanSetNone.2 none_]; rfl
  · next value => rw [scanSetSome value]; rfl

/- One of the formats without a value matches whenever there is a key. -/
theorem scanEmptySplit (some_ : k ≠ []) (plain : '=' ∉ k) :
    ∃ v, (scanMark (k ++ '=' :: r)).or (scanBare (k ++ '=' :: r)) = some (k,v) := by
  have bare : ∃ v, scanBare (k ++ '=' :: r) = some (k,v) := by
    unfold scanBare
    rw [scanKeySplit some_ plain,Option.bind_some,scanSetSome (by simp)]
    exact ⟨_,rfl⟩
  have mark : scanMark (k ++ '=' :: r) = none ∨ ∃ v, scanMark (k ++ '=' :: r) = some (k,v) := by
    unfold scanMark
    rw [scanEqualsSplit some_ plain,Option.bind_some]
    cases scanSet (fun c => c = ';' ∨ c = '#') (r.dropWhile isspace) with
    | none => exact .inl rfl
    | some v => exact .inr ⟨v.1,rfl⟩
  rcases mark with none_ | ⟨v,mark⟩
  · rw [none_]
    exact bare
  · exact ⟨v,by rw [mark]; rfl⟩

/- A line with a key. -/
theorem keyLine {section_ line : Str} (empty : strstrip line ≠ []) (comment : (strstrip line).head? ≠ some '#')
    (named : ¬((strstrip line).head? = some '[' ∧ (strstrip line).getLast? = some ']'))
    (split : strstrip line = k ++ '=' :: r) (some_ : k ≠ []) (plain : '=' ∉ k) :
    iniparserLine section_ line = .value (strlwc (strstrip k)) (valueText (r.dropWhile isspace)) := by
  unfold iniparserLine
  rw [if_neg empty,if_neg comment,if_neg named,split]
  rw [← Option.or_assoc,scanQuotedSplit some_ plain,scanPlainSplit some_ plain]
  unfold valueText
  cases quoted (r.dropWhile isspace) with
  | some v => rfl
  | none =>
    by_cases none_ : uncommented (r.dropWhile isspace) = []
    · obtain ⟨v,empty_⟩ := scanEmptySplit (r := r) some_ plain
      rw [if_pos none_,empty_]
      simp only [Option.map_none,Option.or_none,Option.getD_none,none_]
      rfl
    · rw [if_neg none_]
      rfl

/- A line that is neither empty nor a comment nor a section, without a key. -/
theorem keylessLine {section_ line : Str} (empty : strstrip line ≠ []) (comment : (strstrip line).head? ≠ some '#')
    (named : ¬((strstrip line).head? = some '[' ∧ (strstrip line).getLast? = some ']'))
    (none_ : (strstrip line).takeWhile (fun c => c ≠ '=') = [] ∨ (strstrip line).dropWhile (fun c => c ≠ '=') = []) :
    iniparserLine section_ line = .error := by
  obtain ⟨equals,bare⟩ := scanKeyless none_
  unfold iniparserLine
  rw [if_neg empty,if_neg comment,if_neg named]
  unfold scanQuoted scanPlain scanMark
  rw [equals,bare]
  rfl

end Values

/- The six formats implement the grammar: a line is an error exactly when it has no '=', or nothing in front of it. -/
theorem lineGrammar (section_ line : Str) : iniparserLine section_ line = grammarLine section_ line := by
  unfold grammarLine
  by_cases empty : strstrip line = []
  · simp only [if_pos empty]
    unfold iniparserLine
    rw [if_pos empty]
  · by_cases comment : (strstrip line).head? = some '#'
    · simp only [if_neg empty,if_pos comment]
      unfold iniparserLine
      rw [if_neg empty,if_pos comment]
    · by_cases named : (strstrip line).head? = some '[' ∧ (strstrip line).getLast? = some ']'
      · simp only [if_neg empty,if_neg comment,if_pos named]
        unfold iniparserLine
        rw [if_neg empty,if_neg comment,if_pos named]
        refine congrArg (fun t => LineStatus.section_ (strlwc (strstrip t))) ?_
        by_cases none_ : (strstrip line).tail.takeWhile (fun c => c ≠ ']') = []
        · rw [scanSetNone.2 none_,if_pos none_]
          rfl
        · rw [scanSetSome none_,if_neg none_]
          rfl
      · simp only [if_neg empty,if_neg comment,if_neg named]
        by_cases none_ : (strstrip line).takeWhile (fun c => c ≠ '=') = [] ∨ (strstrip line).dropWhile (fun c => c ≠ '=') = []
        · rw [if_pos none_,keylessLine empty comment named none_]
        · rw [if_neg none_]
          rw [not_or] at none_
          obtain ⟨e,r,rest⟩ := List.exists_cons_of_ne_nil none_.2
          have equals : e = '=' := by
            have head := List.head?_dropWhile_not (fun c => decide (c ≠ '=')) (strstrip line)
            rw [rest] at head
            simpa using head
          subst equals
          have split : strstrip line = (strstrip line).takeWhile (fun c => c ≠ '=') ++ '=' :: r := by
            rw [← rest,List.takeWhile_append_dropWhile]
          have plain : '=' ∉ (strstrip line).takeWhile fun c => c ≠ '=' := fun mem =>
            absurd (List.mem_takeWhile_imp mem) (by simp)
          rw [rest]
          exact keyLine empty comment named split none_.1 plain

end CuteNdk.Ini
