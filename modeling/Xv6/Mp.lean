import Mathlib
import Xv6.Param

/-!
# The multiprocessor configuration table (`mpconfig` and `mpinit` of mp.c)

`mpconfig` accepts a configuration table whose header reads `PCMP`, whose version is 1 or 4 and
whose `length` bytes sum to 0 modulo 256. `mpinit` then walks the entries after the 44-byte header
up to `conf + conf->length`: a processor entry (20 bytes) records its APIC id while fewer than
`NCPU` have been recorded, an I/O APIC entry (8 bytes) records its id, and bus and interrupt
entries (8 bytes) are skipped. Each of these ends with `continue`. For any other type the
`default` case clears `ismp` and its `break` leaves the `switch` only: `p` does not move, and the
`for` loop meets the same entry again.

A table is the bytes from `conf` on. The walk runs on fuel and gives `none` when the fuel runs
out; `mpinit_unknown_entry_spins` is a table that passes `mpconfig` and that no fuel gets through.
-/

namespace Xv6

/-- `sum(addr, len)`: the bytes added as an `int` and returned as a `uchar`. -/
def mpsum (conf : List UInt8) (len : Nat) : Nat := ((conf.take len).map UInt8.toNat).sum % 256

/-- `conf->length`, the little-endian `ushort` at offset 4. -/
def confLength (conf : List UInt8) : Nat := (conf.getD 4 0).toNat + 256 * (conf.getD 5 0).toNat

/-- The checks of `mpconfig` on the table it found: signature, version and checksum. -/
def mpconfigOk (conf : List UInt8) : Bool :=
  conf.take 4 == [0x50, 0x43, 0x4D, 0x50] && (conf.getD 6 0 == 1 || conf.getD 6 0 == 4) &&
    mpsum conf (confLength conf) == 0

/-- What `mpinit` records: `ncpu`, the APIC ids in `cpus[0..ncpu)`, `ioapicid` and `ismp`. -/
structure MpState where
  ncpu : Nat
  apicid : List UInt8
  ioapicid : UInt8
  ismp : Bool
  deriving DecidableEq, Repr

/-- The entry loop of `mpinit` from offset `p`, up to the end `e`, with `fuel` passes left. -/
def mpinitLoop (conf : List UInt8) (e : Nat) : Nat → Nat → MpState → Option MpState
  | 0, _, _ => none
  | fuel + 1, p, s =>
    if p < e then
      match (conf.getD p 0).toNat with
      | 0 =>
        -- MPPROC
        let s := if s.ncpu < NCPU then { s with ncpu := s.ncpu + 1, apicid := s.apicid ++ [conf.getD (p + 1) 0] }
          else s
        mpinitLoop conf e fuel (p + 20) s
      | 2 =>
        -- MPIOAPIC
        mpinitLoop conf e fuel (p + 8) { s with ioapicid := conf.getD (p + 1) 0 }
      | 1 | 3 | 4 =>
        -- MPBUS, MPIOINTR, MPLINTR
        mpinitLoop conf e fuel (p + 8) s
      | _ =>
        -- `ismp = 0; break;` leaves the `switch`, not the loop
        mpinitLoop conf e fuel p { s with ismp := false }
    else some s

/-- `mpinit()` on the table `mpconfig` finds: the state it records, its panic, or `none` when the
fuel runs out. -/
def mpinit (conf : List UInt8) (fuel : Nat) : Option (Except String MpState) :=
  if !mpconfigOk conf then some (.error "Expect to run on an SMP")
  else (mpinitLoop conf (confLength conf) fuel 44 ⟨0, [], 0, true⟩).map fun s =>
    if s.ismp then .ok s else .error "Didn't find a suitable machine"

/-- Once the loop meets an entry of no known type before the end, no fuel gets it past: every pass
finds the same entry. -/
theorem mpinitLoop_unknown {conf : List UInt8} {e p : Nat} (hp : p < e) (ht : 4 < (conf.getD p 0).toNat) :
    ∀ fuel s, mpinitLoop conf e fuel p s = none := by
  intro fuel
  -- one pass per unit of fuel, each back at `p`
  induction fuel with
  | zero => intro s; rfl
  | succ fuel ih =>
    intro s
    rw [mpinitLoop, if_pos hp]
    split
    all_goals first | omega | exact ih _

/-- A 45-byte table: the header (`PCMP`, length 45, version 4, checksum byte `0x9A`) and one entry
of type 5. -/
def unknownEntryConf : List UInt8 :=
  [0x50, 0x43, 0x4D, 0x50, 45, 0, 4, 0x9A] ++ List.replicate 36 0 ++ [5]

/-- `mpconfig` accepts the table, and `mpinit` never finishes on it: it neither records the
processors nor reaches `panic("Didn't find a suitable machine")`. -/
theorem mpinit_unknown_entry_spins :
    mpconfigOk unknownEntryConf = true ∧ ∀ fuel, mpinit unknownEntryConf fuel = none := by
  have hok : mpconfigOk unknownEntryConf = true := by decide
  refine ⟨hok, fun fuel => ?_⟩
  have hlen : confLength unknownEntryConf = 45 := by decide
  have hty : (unknownEntryConf.getD 44 0).toNat = 5 := by decide
  rw [mpinit, hok, Bool.not_true, if_neg Bool.false_ne_true, hlen,
    mpinitLoop_unknown (by decide) (by omega)]
  rfl

end Xv6
