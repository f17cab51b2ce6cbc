import CuteNdk.Lib.CString
import Mathlib.Data.BitVec

/-! inet_addr: an IPv4 address and a port, their text and the way back. Texts are the
characters before the terminator. -/
namespace CuteNdk.Inet
open Lib.CString

/- The bytes of a word as they lie in memory, the least first. -/
def byte (a : BitVec 32) (k : Nat) : BitVec 8 := a.extractLsb' (8 * k) 8

def ofBytes (b₀ b₁ b₂ b₃ : BitVec 8) : BitVec 32 := b₃ ++ b₂ ++ b₁ ++ b₀

def htons (p : BitVec 16) : BitVec 16 := p.extractLsb' 0 8 ++ p.extractLsb' 8 8

def htonl (a : BitVec 32) : BitVec 32 := ofBytes (byte a 3) (byte a 2) (byte a 1) (byte a 0)

/- The same swaps. -/
def ntohs (p : BitVec 16) : BitVec 16 := htons p

def ntohl (a : BitVec 32) : BitVec 32 := htonl a

/- "%d.%d.%d.%d" of the bytes of s_addr. -/
def inetNtoa (a : BitVec 32) : Str :=
  ['.'].intercalate [digits (byte a 0).toNat,digits (byte a 1).toNat,digits (byte a 2).toNat,digits (byte a 3).toNat]

/- What the C library answers. gethostname: what it returns and leaves in the buffer. -/
structure Net where
  inetAton : Str → Option (BitVec 32)
  gethostname : Nat → Int × Str
  gethostbyaddr : BitVec 32 → Option Str
  gethostbyname : Str → Option (BitVec 32)

def afInet : Int := 2

/- sin_port and sin_addr are in network byte order. -/
structure SockaddrIn where
  sinFamily : Int
  sinPort : BitVec 16
  sinAddr : BitVec 32
  sinZero : BitVec 64
  deriving DecidableEq, Repr

structure InetAddr where
  addrType : Int
  in4 : SockaddrIn
  deriving DecidableEq, Repr

namespace InetAddr

def getType (a : InetAddr) : Int := a.addrType

def getPortNumber (a : InetAddr) : BitVec 16 := if a.getType = afInet then ntohs a.in4.sinPort else 0

def getIpAddress (a : InetAddr) : BitVec 32 := ntohl a.in4.sinAddr

def reset (a : InetAddr) : InetAddr := { a with in4 := ⟨if a.getType = afInet then afInet else 0,0,0,0⟩ }

/- set of a port and an address. It returns 0. -/
def set (a : InetAddr) (portNumber : BitVec 16) (inetAddress : BitVec 32) : Int × InetAddr :=
  (0,{ a with
    addrType := afInet
    in4 := { a.in4 with sinFamily := afInet, sinPort := htons portNumber, sinAddr := htonl inetAddress } })

/- The constructor from a port and an address. raw is the memory it is given. -/
def ofPort (raw : InetAddr) (portNumber : BitVec 16) (ipAddr : BitVec 32) : InetAddr :=
  (set { raw.reset with addrType := afInet } portNumber ipAddr).2

/- set of a port and a host name. It overwrites the whole object. -/
def setHost (net : Net) (portNumber : BitVec 16) (hostName : Str) : Int × InetAddr :=
  let this : InetAddr := ⟨afInet,⟨afInet,0,0,0⟩⟩
  match net.inetAton hostName with
  | some addrv4 => this.set portNumber (ntohl addrv4)
  | none =>
    match net.gethostbyname hostName with
    | some addrv4 => this.set portNumber (ntohl addrv4)
    | none => (-1,this)

/- strncpy into a buffer of zeros. -/
def getHostAddr (a : InetAddr) (addrSize : Nat) : Str := (inetNtoa a.in4.sinAddr).take addrSize

def getHostName (net : Net) (a : InetAddr) (len : Nat) : Int × Str :=
  if a.in4.sinAddr = 0 then net.gethostname len
  else match net.gethostbyaddr a.in4.sinAddr with
    | none => (-1,[])
    | some hName => if len ≤ hName.length then (-2,hName.take (len - 1)) else (0,hName)

def maxHostnameLen : Nat := 255

/- The text left in str, none for -1. str is not null. -/
def addrToString (net : Net) (a : InetAddr) (size : Nat) (ipaddrFormat : Int) : Option Str :=
  if size = 0 then none
  else
    let hoststr := if ipaddrFormat = 0 then (getHostName net a maxHostnameLen).2 else getHostAddr a maxHostnameLen
    if size < hoststr.length + 5 + 1 + 1 then none
    else some (hoststr ++ ':' :: digits a.getPortNumber.toNat)

/- A text of 32 characters and more leaves ip_addr without a terminator: the searches read past
it, and the result is none. -/
def stringToAddr (net : Net) (this : InetAddr) (address : Str) : Option (Int × InetAddr) :=
  if 32 ≤ address.length then none
  else match strrchr address ':' with
    | none =>
      let portNum := BitVec.ofInt 16 (atoi address)
      some (if portNum = 0 then (-1,this) else this.set portNum 0)
    | some portP =>
      some (setHost net (BitVec.ofInt 16 (atoi portP.tail)) (address.take (address.length - portP.length)))

end InetAddr

section Bytes

theorem byteOfBytes (b₀ b₁ b₂ b₃ : BitVec 8) : byte (ofBytes b₀ b₁ b₂ b₃) 0 = b₀ ∧
    byte (ofBytes b₀ b₁ b₂ b₃) 1 = b₁ ∧ byte (ofBytes b₀ b₁ b₂ b₃) 2 = b₂ ∧ byte (ofBytes b₀ b₁ b₂ b₃) 3 = b₃ := by
  unfold byte ofBytes
  refine ⟨?_,?_,?_,?_⟩ <;> ext i hi <;> grind

theorem ofBytesByte (a : BitVec 32) : ofBytes (byte a 0) (byte a 1) (byte a 2) (byte a 3) = a := by
  apply BitVec.eq_of_getLsbD_eq
  intro i hi
  unfold ofBytes byte
  grind

theorem htonsTwice (p : BitVec 16) : ntohs (htons p) = p := by
  unfold ntohs htons
  ext i hi
  grind

theorem htonlTwice (a : BitVec 32) : ntohl (htonl a) = a := by
  unfold ntohl htonl
  obtain ⟨b₀,b₁,b₂,b₃⟩ := byteOfBytes (byte a 3) (byte a 2) (byte a 1) (byte a 0)
  rw [b₀,b₁,b₂,b₃,ofBytesByte]

end Bytes

section Texts

/- A quad is of digits and points, at most fifteen of them. -/
theorem quadLength (a : BitVec 32) : (inetNtoa a).length ≤ 15 := by
  have three (k : Nat) : (digits (byte a k).toNat).length ≤ 3 :=
    digitsLength (by decide) (Nat.lt_trans (byte a k).isLt (by decide))
  have l₀ := three 0
  have l₁ := three 1
  have l₂ := three 2
  have l₃ := three 3
  simp only [inetNtoa,List.intercalate,List.intersperse,List.flatten_cons,List.flatten_nil,List.length_append,
    List.length_cons,List.length_nil]
  omega

/- A port has five digits at most and is read back. -/
theorem portLength (p : BitVec 16) : (digits p.toNat).length ≤ 5 :=
  digitsLength (by decide) (Nat.lt_trans p.isLt (by decide))

theorem portRead (p : BitVec 16) : BitVec.ofInt 16 (atoi (digits p.toNat)) = p := by
  have stop : NoDigit [] := fun c is => absurd is (Option.not_mem_none c)
  have read := atoiDigits (digitsDigits p.toNat) stop
  rw [List.append_nil,decimalDigits] at read
  rw [read]
  simp

end Texts

section Quads

/- inet_aton on dotted quads in decimal. Its other forms are left out. -/
def dottedQuad (s : Str) : Option (BitVec 32) :=
  match s.splitOn '.' with
  | [d₀,d₁,d₂,d₃] =>
    if [d₀,d₁,d₂,d₃].all fun d => decide (Digits d ∧ decimal d < 256) then
      some (ofBytes (BitVec.ofNat 8 (decimal d₀)) (BitVec.ofNat 8 (decimal d₁)) (BitVec.ofNat 8 (decimal d₂))
        (BitVec.ofNat 8 (decimal d₃)))
    else none
  | _ => none

theorem dottedQuadInverse (a : BitVec 32) : dottedQuad (inetNtoa a) = some a := by
  have split : (inetNtoa a).splitOn '.' =
      [digits (byte a 0).toNat,digits (byte a 1).toNat,digits (byte a 2).toNat,digits (byte a 3).toNat] := by
    refine List.splitOn_intercalate '.' (fun d mem => ?_) (List.cons_ne_nil _ _)
    simp only [List.mem_cons,List.not_mem_nil,or_false] at mem
    rcases mem with rfl | rfl | rfl | rfl <;> exact notDigit rfl
  have small (k : Nat) : decide (Digits (digits (byte a k).toNat) ∧ decimal (digits (byte a k).toNat) < 256) = true := by
    refine decide_eq_true ⟨digitsDigits _,?_⟩
    rw [decimalDigits]
    exact (byte a k).isLt
  unfold dottedQuad
  simp only [split]
  rw [if_pos (by simp only [List.all_cons,List.all_nil,small,Bool.and_self])]
  simp only [decimalDigits,BitVec.ofNat_toNat,BitVec.setWidth_eq,ofBytesByte]

/- Without names. -/
def quadNet : Net := ⟨dottedQuad,fun _ => (-1,[]),fun _ => none,fun _ => none⟩

end Quads

section RoundTrip
open InetAddr

/- The text of an address and a port fits ip_addr, and is taken apart at its colon. -/
theorem textRead (net : Net) (this : InetAddr) (host : Str) (port : BitVec 16) (short : host.length ≤ 15) :
    stringToAddr net this (host ++ ':' :: digits port.toNat) = some (setHost net port host) := by
  have few := portLength port
  have fits : ¬ 32 ≤ (host ++ ':' :: digits port.toNat).length := by
    rw [List.length_append,List.length_cons]
    omega
  have colon : strrchr (host ++ ':' :: digits port.toNat) ':' = some (':' :: digits port.toNat) := strrchrFound (notDigit rfl)
  have front : (host ++ ':' :: digits port.toNat).take
      ((host ++ ':' :: digits port.toNat).length - (':' :: digits port.toNat).length) = host := by
    rw [List.length_append,Nat.add_sub_cancel]
    exact List.take_left
  unfold stringToAddr
  rw [if_neg fits,colon]
  simp only [List.tail_cons,portRead,front]

/- The text of the default format, in a buffer it fits. -/
theorem textWritten (net : Net) {a : InetAddr} {size : Nat} {ipaddrFormat : Int} (dotted : ipaddrFormat ≠ 0)
    (room : (inetNtoa a.in4.sinAddr).length + 7 ≤ size) : addrToString net a size ipaddrFormat =
      some (inetNtoa a.in4.sinAddr ++ ':' :: digits a.getPortNumber.toNat) := by
  have short := quadLength a.in4.sinAddr
  have whole : getHostAddr a maxHostnameLen = inetNtoa a.in4.sinAddr := List.take_of_length_le (Nat.le_trans short (by decide))
  unfold addrToString
  rw [if_neg (by omega)]
  simp only [if_neg dotted,whole]
  rw [if_neg (by omega)]

theorem addrOfPort (raw : InetAddr) (port : BitVec 16) (ip : BitVec 32) :
    ofPort raw port ip = ⟨afInet,⟨afInet,htons port,htonl ip,0⟩⟩ := rfl

/- What comes back is the whole object. -/
theorem addrTextRoundTrip (net : Net) (inverse : ∀ a, net.inetAton (inetNtoa a) = some a) (raw this : InetAddr)
    (port : BitVec 16) (ip : BitVec 32) (size : Nat) (ipaddrFormat : Int) (dotted : ipaddrFormat ≠ 0)
    (room : (inetNtoa (ofPort raw port ip).in4.sinAddr).length + 7 ≤ size) :
    ∃ text b, addrToString net (ofPort raw port ip) size ipaddrFormat = some text ∧
      stringToAddr net this text = some (0,b) ∧ b = ofPort raw port ip ∧ b.getPortNumber = port ∧ b.getIpAddress = ip := by
  have written := textWritten net dotted room
  have port' : (ofPort raw port ip).getPortNumber = port := htonsTwice port
  rw [port',addrOfPort] at written
  refine ⟨_,ofPort raw port ip,written,?_,rfl,port',htonlTwice ip⟩
  rw [textRead net this _ port (quadLength (htonl ip)),addrOfPort]
  simp only [setHost,inverse,InetAddr.set,htonlTwice]

theorem loopbackRoundTrip : ∃ text b,
    addrToString quadNet (ofPort ⟨0,⟨0,0,0,0⟩⟩ 8080 0x7f000001) 16 1 = some text ∧
      stringToAddr quadNet ⟨0,⟨0,0,0,0⟩⟩ text = some (0,b) ∧ b = ofPort ⟨0,⟨0,0,0,0⟩⟩ 8080 0x7f000001 ∧
      b.getPortNumber = 8080 ∧ b.getIpAddress = 0x7f000001 :=
  addrTextRoundTrip quadNet dottedQuadInverse ⟨0,⟨0,0,0,0⟩⟩ ⟨0,⟨0,0,0,0⟩⟩ 8080 0x7f000001 16 1 (by decide) (by decide)

end RoundTrip

end CuteNdk.Inet
