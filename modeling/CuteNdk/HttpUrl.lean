import CuteNdk.HttpParser

/-! The three functions of http_parser that take a url apart. Each looks for the slash and the
colon itself. What they are not given a value for they leave. -/
namespace CuteNdk.HttpUrl
open Lib.CString HttpParser

def schemeEnd : Str := [':','/','/']

/- Of a pointer into p, the text in front of it. -/
def upTo (p p1 : Str) : Str := p.take (p.length - p1.length)

def getHostInUrl (url host : Str) : Str :=
  match strstr url schemeEnd with
  | none => host
  | some p =>
    let p := p.drop 3
    match strchr p '/' with
    | none => p
    | some p1 => upTo p p1

def getUriInUrl (url uri : Str) : Str :=
  match strstr url schemeEnd with
  | none => uri
  | some p =>
    match strchr (p.drop 3) '/' with
    | none => ['/']
    | some p1 => p1

/- host and port after the call. A later pointer is a shorter text. -/
def getHostPort (url host : Str) (port : Int) : Str × Int :=
  match strstr url schemeEnd with
  | none => (host,port)
  | some p =>
    let p := p.drop 3
    match strchr p '/' with
    | none =>
      match strchr p ':' with
      | none => (p,port)
      | some p2 => (upTo p p2,if p2.drop 1 = [] then port else atoi (p2.drop 1))
    | some p1 =>
      match strchr p ':' with
      | none => (upTo p p1,port)
      | some p2 =>
        if p2.length < p1.length then (upTo p p1,port)
        else (upTo p p2,if p2.length ≠ p1.length + 1 then atoi (p2.drop 1) else port)

/- The name in a host and the port behind its first colon, if there is one. -/
def hostName (host : Str) : Str := host.takeWhile (fun c => c != ':')

def hostPort (host : Str) (port : Int) : Int :=
  match strchr host ':' with
  | none => port
  | some colon => if colon.tail = [] then port else atoi colon.tail

theorem upToFound (pre s : Str) : upTo (pre ++ s) s = pre := by
  unfold upTo
  rw [List.length_append,Nat.add_sub_cancel,List.take_left]

theorem hostNameFound {pre post : Str} (fresh : ':' ∉ pre) : hostName (pre ++ ':' :: post) = pre := takeFresh fresh

theorem hostNameWhole {host : Str} (fresh : ':' ∉ host) : hostName host = host := by
  unfold hostName
  exact List.takeWhile_eq_self_iff.mpr fun c mem => bne_iff_ne.mpr fun same => fresh (same ▸ mem)

section Parts
variable {url h path : Str}

theorem slashParts (host uri : Str) (port : Int) (found : strstr url schemeEnd = some (schemeEnd ++ (h ++ '/' :: path)))
    (fresh : '/' ∉ h) :
    getHostInUrl url host = h ∧ getUriInUrl url uri = '/' :: path ∧ getHostPort url host port = (hostName h,hostPort h port) := by
  have behind : (schemeEnd ++ (h ++ '/' :: path)).drop 3 = h ++ '/' :: path := rfl
  have slash : strchr (h ++ '/' :: path) '/' = some ('/' :: path) := strchrFound fresh
  refine ⟨?_,?_,?_⟩
  · unfold getHostInUrl
    rw [found]
    simp only [behind,slash]
    exact upToFound h _
  · unfold getUriInUrl
    rw [found]
    simp only [behind,slash]
  · unfold getHostPort hostPort
    rw [found]
    simp only [behind,slash]
    cases Decidable.em (':' ∈ h) with
    | inl colon =>
      obtain ⟨pre,text,split,first⟩ := List.eq_append_cons_of_mem colon
      have inHost : strchr h ':' = some (':' :: text) := split ▸ strchrFound first
      have whole : h ++ '/' :: path = pre ++ ':' :: (text ++ '/' :: path) := by
        rw [split,List.append_assoc,List.cons_append]
      have inUrl : strchr (h ++ '/' :: path) ':' = some (':' :: (text ++ '/' :: path)) := whole ▸ strchrFound first
      have name : hostName h = pre := split ▸ hostNameFound first
      have before : ¬ (':' :: (text ++ '/' :: path)).length < ('/' :: path).length := by
        rw [List.length_cons,List.length_append]
        omega
      have empty : (':' :: (text ++ '/' :: path)).length ≠ ('/' :: path).length + 1 ↔ text ≠ [] := by
        rw [List.length_cons,List.length_append,List.ne_nil_iff_length_pos]
        omega
      have number : atoi (text ++ '/' :: path) = atoi text := atoiStop (by decide) (by decide) (by decide) (by decide)
      simp only [inUrl,inHost,name,List.drop_one,List.tail_cons,number]
      rw [if_neg before,whole,upToFound]
      simp only [empty,ite_not]
      cases text <;> rfl
    | inr none_ =>
      have inHost : strchr h ':' = none := strchrNone.mpr none_
      simp only [inHost,hostNameWhole none_]
      cases later : strchr (h ++ '/' :: path) ':' with
      | none => simp only [upToFound]
      | some p2 =>
        -- a colon of the path is behind the slash
        have all : ∀ c ∈ h, (c != ':') = true := fun c mem => bne_iff_ne.mpr fun same => none_ (same ▸ mem)
        unfold strchr at later
        rw [List.dropWhile_append_of_pos all,List.dropWhile_cons_of_pos (by decide)] at later
        obtain ⟨pre,post,split,_⟩ := strchrSplit (s := path) later
        have behindSlash : p2.length < ('/' :: path).length := by
          rw [split,List.length_cons,List.length_append]
          omega
        simp only
        rw [if_pos behindSlash,upToFound]

theorem plainParts (host uri : Str) (port : Int) (found : strstr url schemeEnd = some (schemeEnd ++ h)) (fresh : '/' ∉ h) :
    getHostInUrl url host = h ∧ getUriInUrl url uri = ['/'] ∧ getHostPort url host port = (hostName h,hostPort h port) := by
  have behind : (schemeEnd ++ h).drop 3 = h := rfl
  have slash : strchr h '/' = none := strchrNone.mpr fresh
  refine ⟨?_,?_,?_⟩
  · unfold getHostInUrl
    rw [found]
    simp only [behind,slash]
  · unfold getUriInUrl
    rw [found]
    simp only [behind,slash]
  · unfold getHostPort hostPort
    rw [found]
    simp only [behind,slash]
    cases Decidable.em (':' ∈ h) with
    | inl colon =>
      obtain ⟨pre,text,split,first⟩ := List.eq_append_cons_of_mem colon
      have inHost : strchr h ':' = some (':' :: text) := split ▸ strchrFound first
      have name : hostName h = pre := split ▸ hostNameFound first
      simp only [inHost,name,List.drop_one,List.tail_cons]
      rw [split,upToFound]
      cases text <;> rfl
    | inr none_ =>
      simp only [strchrNone.mpr none_,hostNameWhole none_]

end Parts

theorem hostPortDigits {name text : Str} (port : Int) (first : ':' ∉ name) (number : Digits text) :
    hostPort (name ++ ':' :: text) port = decimal text := by
  unfold hostPort
  rw [strchrFound first]
  exact (if_neg number.1).trans (atoiWhole number)

end CuteNdk.HttpUrl
