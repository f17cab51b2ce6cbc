import CuteNdk.HttpParser
import Mathlib.Algebra.Group.Nat.Defs
import Mathlib.Algebra.Group.Int.Defs

/-! http_client: the request for a file, from its Range field to the call of
handle_start_transfer_data. Where the request is in the hands of the system or
of another component (opening the file, sending, the file table), what it
answers is part of the world of the request. -/
namespace CuteNdk.HttpClient
open Lib.CString HttpParser

/- The value of a number in an int64_t. -/
def int64 (n : Int) : Int := n.bmod (2 ^ 64)

inductive Method where
  | unknow
  | get
  | head
  deriving DecidableEq, Repr

def stUncompleted : Nat := 1 <<< 0
def stCompleted : Nat := 1 <<< 1

structure FileInfo where
  status : Nat
  length : Int
  mtime : Int
  etag : Str
  deriving DecidableEq, Repr

structure Client where
  httpMethod : Method
  uri : Str
  contentLength : Int
  deriving DecidableEq, Repr

/- What response_to_client was called with, and the Content-Length it printed. -/
structure Response where
  status : Nat
  beginPos : Int
  endPos : Int
  fileSize : Int
  contentLength : Option Int
  deriving DecidableEq, Repr

inductive AgentKind where
  | memCacheTransfer
  | serialFileTransfer
  deriving DecidableEq, Repr

structure TransferAgent where
  kind : AgentKind
  beginPos : Int
  contentLength : Int
  deriving DecidableEq, Repr

/- A call of handle_start_transfer_data. -/
structure Start where
  agent : TransferAgent
  bandwidth : Int
  beginPos : Int
  endPos : Int
  contentLength : Int
  deriving DecidableEq, Repr

/- A call of handle_pull_file. -/
structure Pull where
  url : Str
  beginPos : Int
  endPos : Int
  deriving DecidableEq, Repr

structure Outcome where
  responses : List Response
  started : Option Start
  pulled : Option Pull
  result : Int
  deriving DecidableEq, Repr

/- strptime says whether it could read the text, mktime what the struct tm holds
after that. -/
structure World where
  payload : Int
  concurrencyNum : Int
  minMemCacheSize : Int
  maxMemCacheSize : Int
  find : Str → Option FileInfo
  strptime : Str → Bool
  mktime : Str → Int
  memCacheOpens : Bool
  fileOpens : Bool
  sends : Bool

/- The text from '?' on, and the parameter's text after its key. -/
def param (urlP key : Str) : Option Str :=
  match strstr urlP.tail key with
  | none => none
  | some p =>
    let before := charAt urlP (urlP.length - p.length - 1)
    if before ≠ '?' ∧ before ≠ '&' then none else some (p.drop key.length)

def parseParams (urlP : Str) : Option (Int × Str) :=
  match param urlP ['b','w','='] with
  | none => none
  | some bwP =>
    match param urlP ['u','r','l','='] with
    | none => none
    | some p => some (atoi bwP,p.take (strcspn p ['&']))

/- while (*xx && xx < range_end_p) { if (*xx == ',') break; ++xx; }, pointers
counted from the value; the text is what xx points at. -/
def scanRange : Str → Nat → Nat → Nat
  | [], xx, _ => xx
  | c :: s, xx, rangeEnd =>
    if xx < rangeEnd then if c = ',' then xx else scanRange s (xx + 1) rangeEnd else xx

def rangeKey : Str := ['R','a','n','g','e']

/- The text at value_ptr and how far it is into the value. -/
def valuePtr (rangeP : Str) : Str × Nat :=
  let n := strspn rangeP ['b','y','t','e','s','=',' ','\t']
  (rangeP.drop n,n)

/- The code, begin_pos and end_pos after the call; they come in as 0 and -1. -/
def getRange (str : Str) (beginPos endPos : Int) : Nat × Int × Int :=
  match getValue str rangeKey with
  | none => (200,beginPos,endPos)
  | some (rangeP,rangeEnd) =>
    let (value,n) := valuePtr rangeP
    if scanRange value n rangeEnd ≠ rangeEnd then (501,beginPos,endPos)
    else if (charAt value 0).isDigit then
      match strchr value.tail '-' with
      | none => (206,strtoll value,endPos)
      | some sep =>
        if (charAt sep 1).isDigit then (206,strtoll value,strtoll sep.tail)
        else (206,strtoll value,endPos)
    else if (charAt value 1).isDigit then (206,0,strtoll value.tail)
    else (416,0,endPos)

/- What lies between a pointer and one stop characters on. The terminator is a
character too. -/
def between (p : Str) (stop : Nat) : Str := (p ++ ['\x00']).take stop

def ifModifiedSince : Str :=
  ['I','f','-','M','o','d','i','f','i','e','d','-','S','i','n','c','e']

def checkModified (w : World) (header : Str) (lastModified : Int) (etag : Str) : Int :=
  match getValue header ifModifiedSince with
  | none => 0
  | some (p,stop) =>
    if w.strptime (between p stop) then 0
    else
      let t := w.mktime (between p stop)
      if lastModified > t then 0
      else if lastModified = t ∧ etag ≠ [] then
        match getValue header ['E','t','a','g'] with
        | none => 0
        | some (p,stop) => if between p stop ≠ etag then 0 else -1
      else -1

def responseToClient (c : Client) (status : Nat) (beginPos endPos fileSize : Int) :
    Response × Client :=
  let length := int64 (endPos - beginPos + 1)
  if status = 200 ∨ status = 206 then
    (⟨status,beginPos,endPos,fileSize,some length⟩,
      if c.contentLength = 0 then { c with contentLength := length } else c)
  else (⟨status,beginPos,endPos,fileSize,none⟩,c)

/- Every early exit: one response and -1. -/
def refuse (c : Client) (status : Nat) (beginPos endPos fileSize : Int) : Outcome where
  responses := [(responseToClient c status beginPos endPos fileSize).1]
  started := none
  pulled := none
  result := -1

def selectAgent (w : World) (f : FileInfo) (beginPos contentLength : Int) : Option TransferAgent :=
  if f.length ≤ w.maxMemCacheSize ∧ w.minMemCacheSize ≤ f.length ∧ w.memCacheOpens = true then
    some ⟨.memCacheTransfer,beginPos,contentLength⟩
  else if w.fileOpens then some ⟨.serialFileTransfer,beginPos,contentLength⟩
  else none

/- From the selection of the transfer agent on. -/
def startTransfer (w : World) (c : Client) (f : FileInfo) (code : Nat) (beginPos endPos bandwidth : Int) :
    Outcome :=
  match selectAgent w f beginPos c.contentLength with
  | none => refuse c 503 0 0 0
  | some agent =>
    let (response,c) := responseToClient c code beginPos endPos f.length
    if w.sends then
      ⟨[response],some ⟨agent,bandwidth,beginPos,endPos,c.contentLength⟩,none,0⟩
    else ⟨[response],none,none,-1⟩

/- The request once the file is found. -/
def answer (w : World) (c : Client) (f : FileInfo) (header : Str) (code : Nat)
    (beginPos endPos bandwidth : Int) : Outcome :=
  if f.status &&& stCompleted ≠ 0 ∧ checkModified w header f.mtime f.etag = -1 then
    refuse c 304 0 0 0
  else
    let endPos := if endPos = -1 then f.length - 1 else endPos
    let c := { c with contentLength := int64 (endPos - beginPos + 1) }
    if c.httpMethod = .head then refuse c code beginPos endPos c.contentLength
    else if f.status &&& stUncompleted ≠ 0 then refuse c 501 0 0 0
    else if c.contentLength = 0 ∧ code = 206 then refuse c code beginPos endPos f.length
    else startTransfer w c f code beginPos endPos bandwidth

def handleRequest (w : World) (c : Client) (header : Str) : Outcome :=
  match strchr c.uri '?' with
  | none => refuse c 400 0 0 0
  | some urlP =>
    if charAt urlP 1 = '\x00' then refuse c 400 0 0 0
    else
      match parseParams urlP with
      | none => refuse c 400 0 0 0
      | some (bandwidth,url) =>
        if w.payload > w.concurrencyNum then refuse c 503 0 0 0
        else
          let (ret,beginPos,endPos) := getRange header 0 (-1)
          if ret ≠ 206 ∧ ret ≠ 200 then refuse c ret 0 0 0
          else
            match w.find url with
            | none => ⟨[],none,some ⟨url,beginPos,endPos⟩,0⟩
            | some f => answer w c f header ret beginPos endPos bandwidth

end CuteNdk.HttpClient
