import Xv6.Spec.Memmove
import Xv6.Lib.Bytes

/-! `mp.c`: the search for the tables of the multiprocessor specification and the scan of the configuration table. Memory is
the firmware's: a byte for each physical address. -/

namespace Xv6

open Bytes

def NCPU : ℕ := 8

/-- `sizeof(struct mp)` -/
def MPSIZE : ℕ := 16
/-- `sizeof(struct mpconf)` -/
def MPCONFSIZE : ℕ := 44

/-- the entries of the configuration table that `mp.h` knows -/
inductive MpEntry where
  | proc | bus | ioapic | iointr | lintr
  deriving DecidableEq, Repr

/-- The entry with this type byte. -/
def entryType (b : UInt8) : Option MpEntry :=
  if b = 0x00 then some .proc
  else if b = 0x01 then some .bus
  else if b = 0x02 then some .ioapic
  else if b = 0x03 then some .iointr
  else if b = 0x04 then some .lintr
  else none

/-- how far `p` moves past the entry: `sizeof(struct mpproc)`, `sizeof(struct mpioapic)`, or 8 -/
def MpEntry.size : MpEntry → ℕ
  | .proc => 20
  | .ioapic => 8
  | .bus | .iointr | .lintr => 8

def mpChars (s : String) : List UInt8 := s.toList.map fun c => UInt8.ofNat c.toNat

section

variable (m : Memory)

def bytesAt (a len : ℕ) : List UInt8 := (List.range len).map fun i => m (a + i)

/-- `sum`: an `int`, returned as a `uchar` -/
def mpSum (a len : ℕ) : UInt8 := UInt8.ofNat ((bytesAt m a len).map UInt8.toNat).sum

/-- the rounds of `mpsearch1`, one for each place where the structure may stand -/
def mpFind : ℕ → ℕ → Option ℕ
  | 0, _ => none
  | n + 1, p => if bytesAt m p 4 = mpChars "_MP_" ∧ mpSum m p MPSIZE = 0 then some p else mpFind n (p + MPSIZE)

def mpsearch1 (a len : ℕ) : Option ℕ := mpFind m ((len + MPSIZE - 1) / MPSIZE) a

/-- the `ushort` at `a` -/
def ushortAt (a : ℕ) : ℕ := unle (bytesAt m a 2)

def mpsearch : Option ℕ :=
  let p := ushortAt m 0x40E * 16
  let found := if p ≠ 0 then mpsearch1 m p 1024 else mpsearch1 m (sub32 (ushortAt m 0x413 * 1024) 1024) 1024
  match found with
  | some mp => some mp
  | none => mpsearch1 m 0xF0000 0x10000

/-- `conf->length` -/
def confLength (conf : ℕ) : ℕ := ushortAt m (conf + 4)

/-- The table at `conf` has the signature, the version and the checksum that `mpconfig` asks for. -/
def confOk (conf : ℕ) : Prop :=
  bytesAt m conf 4 = mpChars "PCMP" ∧ (m (conf + 6) = 1 ∨ m (conf + 6) = 4) ∧ mpSum m conf (confLength m conf) = 0

instance (conf : ℕ) : Decidable (confOk m conf) := inferInstanceAs (Decidable (_ ∧ _))

/-- The floating pointer structure and the table. -/
def mpconfig : Option (ℕ × ℕ) :=
  match mpsearch m with
  | none => none
  | some mp =>
    let physaddr := unle (bytesAt m (mp + 4) 4)
    if physaddr = 0 then none
    else if confOk m physaddr then some (mp, physaddr) else none

/-- Where the loop of `mpinit` is, and what it has recorded. -/
structure MpScan where
  p : ℕ
  /-- `cpus[i].apicid` for the first `ncpu` processors -/
  cpus : List UInt8 := []
  ioapicid : UInt8 := 0
  ismp : Bool := true
  /-- where the entries started that were looked at, the last one first -/
  starts : List ℕ := []

/-- One round: `default` leaves the `switch` only, with `p` as it was. -/
def MpScan.round (s : MpScan) : MpScan :=
  let s := { s with starts := s.p :: s.starts }
  match entryType (m s.p) with
  | some .proc =>
    { s with cpus := if s.cpus.length < NCPU then s.cpus ++ [m (s.p + 1)] else s.cpus, p := s.p + MpEntry.proc.size }
  | some .ioapic => { s with ioapicid := m (s.p + 1), p := s.p + MpEntry.ioapic.size }
  | some e => { s with p := s.p + e.size }
  | none => { s with ismp := false }

/-- `for (...; p < e; )`; `none` if `fuel` rounds are not enough. -/
def mpScan (e : ℕ) : ℕ → MpScan → Option MpScan
  | 0, _ => none
  | fuel + 1, s => if s.p < e then mpScan e fuel (s.round m) else some s

end

inductive MpResult where
  | panic (msg : String)
  /-- the machine found, and whether the interrupt mode register is written -/
  | found (cpus : List UInt8) (ioapicid : UInt8) (lapic : ℕ) (imcr : Bool)
  deriving DecidableEq, Repr

/-- `mpinit`, with at most `fuel` rounds of its loop. -/
def mpinit (m : Memory) (fuel : ℕ) : Option MpResult :=
  match mpconfig m with
  | none => some (.panic "Expect to run on an SMP")
  | some (mp, conf) =>
    match mpScan m (conf + confLength m conf) fuel { p := conf + MPCONFSIZE } with
    | none => none
    | some s =>
      if s.ismp = false then some (.panic "Didn't find a suitable machine")
      else some (.found s.cpus s.ioapicid (unle (bytesAt m (conf + 36) 4)) (m (mp + 12) ≠ 0))

end Xv6
