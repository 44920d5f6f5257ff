import Munch.Utf8

/-!
# Where symbols come from

A feed answers each question for the next symbol with a symbol, the end of the
input or a failure. What it still has to say is a list of replies, after which
it reports the end for ever.

`Feed.ofReads` decodes bytes as they come in: each symbol takes as many bytes as
its first one announces, and bytes that are no UTF-8 are lost with the failure.
-/

namespace Munch

inductive InputError
  /-- These bytes, together, are not a symbol. -/
  | invalidUtf8 (bytes : List UInt8)
  | truncated
  | device (kind message : String)
  deriving DecidableEq

def InputError.kind : InputError → String
  | .invalidUtf8 _ => "InvalidData"
  | .truncated => "UnexpectedEof"
  | .device kind _ => kind

/-- Bytes in hexadecimal without padding, between brackets. -/
def InputError.bytes (bytes : List UInt8) : String :=
  "[" ++ ", ".intercalate (bytes.map fun b => String.ofList (Nat.toDigits 16 b.toNat)) ++ "]"

def InputError.message : InputError → String
  | .invalidUtf8 bytes => "input is not valid UTF-8: " ++ InputError.bytes bytes
  | .truncated => "failed to fill whole buffer"
  | .device _ message => message

inductive Reply
  | symbol (c : Char)
  | endOfInput
  | failed (e : InputError)
  deriving DecidableEq

structure Feed where
  pending : List Reply
  asked : Nat
  deriving DecidableEq

namespace Feed

def ofReplies (replies : List Reply) : Feed := ⟨replies, 0⟩

def ofText (text : List Char) : Feed := ofReplies (text.map .symbol)

def next (f : Feed) : Reply × Feed :=
  match f.pending with
  | [] => (.endOfInput, ⟨[], f.asked + 1⟩)
  | reply :: rest => (reply, ⟨rest, f.asked + 1⟩)

end Feed

/-! ## Reading bytes -/

/-- What one read of a device gives; no bytes mean that it has none now. -/
inductive Read
  | bytes (bytes : List UInt8)
  | failed (kind message : String)
  deriving DecidableEq

/-- Each read takes up at least one of a device's reads. -/
def Read.size : Read → Nat
  | .bytes bs => bs.length + 1
  | .failed .. => 1

def Read.totalSize : List Read → Nat
  | [] => 0
  | r :: reads => r.size + totalSize reads

/-- How many bytes the symbol has that begins with `b`. -/
def announced? (b : UInt8) : Option Nat :=
  if b < 0x80 then some 1
  else if b < 0xC0 then none
  else if b < 0xE0 then some 2
  else if b < 0xF0 then some 3
  else if b < 0xF8 then some 4
  else none

/-- The bytes of the last read that are not used yet, and what the reads to come
give. Behind them there are no more bytes. -/
structure Device where
  buffer : List UInt8
  reads : List Read
  deriving DecidableEq

namespace Device

def size (d : Device) : Nat := d.buffer.length + Read.totalSize d.reads

def isOver (d : Device) : Bool := d.buffer.isEmpty && d.reads.isEmpty

/-- The first byte of the next read, if it has one. An interrupted read is tried again. -/
def refill : List Read → Except InputError (Option UInt8) × Device
  | [] => (.ok none, ⟨[], []⟩)
  | .bytes [] :: reads => (.ok none, ⟨[], reads⟩)
  | .bytes (b :: bs) :: reads => (.ok (some b), ⟨bs, reads⟩)
  | .failed kind message :: reads =>
    if kind = "Interrupted" then refill reads else (.error (.device kind message), ⟨[], reads⟩)

def byte (d : Device) : Except InputError (Option UInt8) × Device :=
  match d.buffer with
  | b :: bs => (.ok (some b), { d with buffer := bs })
  | [] => refill d.reads

/-- The next `n` bytes, behind those in `got` (newest first). With fewer of them, they
are lost. -/
def take (got : List UInt8) : Nat → Device → Except InputError (List UInt8) × Device
  | 0, d => (.ok got.reverse, d)
  | n + 1, d =>
    match d.byte with
    | (.ok (some b), d) => take (b :: got) n d
    | (.ok none, d) => (.error .truncated, d)
    | (.error e, d) => (.error e, d)

/-- The symbol that begins with the byte `b`, which has been read. -/
def symbol (b : UInt8) (d : Device) : Reply × Device :=
  match announced? b with
  | none => (.failed (.invalidUtf8 [b]), d)
  | some n =>
    match d.take [b] (n - 1) with
    | (.error e, d) => (.failed e, d)
    | (.ok bytes, d) =>
      match Utf8.symbol? bytes with
      | some c => (.symbol c, d)
      | none => (.failed (.invalidUtf8 bytes), d)

def next (d : Device) : Reply × Device :=
  match d.byte with
  | (.ok none, d) => (.endOfInput, d)
  | (.error e, d) => (.failed e, d)
  | (.ok (some b), d) => d.symbol b

theorem size_refill {reads : List Read} (h : reads ≠ []) :
    (refill reads).2.size < Read.totalSize reads := by
  fun_induction refill reads with
  | case1 => exact absurd rfl h
  | case2 | case5 => simp [size, Read.totalSize, Read.size]
  | case3 b bs reads =>
    simp only [size, Read.totalSize, Read.size, List.length_cons]
    omega
  | case4 message reads ih =>
    by_cases hr : reads = []
    · simp [hr, refill, size, Read.totalSize, Read.size]
    · have := ih hr
      rw [Read.totalSize]
      omega

theorem size_byte (d : Device) : d.byte.2.size ≤ d.size ∧ (d.isOver = false → d.byte.2.size < d.size) := by
  obtain ⟨buffer, reads⟩ := d
  cases buffer with
  | cons b bs => simp [byte, size]
  | nil =>
    by_cases hr : reads = []
    · simp [hr, byte, refill, size, isOver]
    · have := size_refill hr
      simp only [byte, size, List.length_nil] at this ⊢
      omega

theorem size_take (got : List UInt8) (n : Nat) (d : Device) : (take got n d).2.size ≤ d.size := by
  induction n generalizing got d with
  | zero => exact Nat.le_refl _
  | succ n ih =>
    have hb := d.size_byte.1
    simp only [take]
    rcases h : d.byte with ⟨_ | _ | b, t⟩ <;> rw [h] at hb
    · exact hb
    · exact hb
    · exact Nat.le_trans (ih _ t) hb

theorem size_symbol (b : UInt8) (d : Device) : (d.symbol b).2.size ≤ d.size := by
  unfold symbol
  cases announced? b with
  | none => exact Nat.le_refl _
  | some n =>
    have ht := size_take [b] (n - 1) d
    dsimp only
    rcases h : take [b] (n - 1) d with ⟨_ | bytes, t⟩ <;> rw [h] at ht
    · exact ht
    · cases hs : Utf8.symbol? bytes <;> simpa only [hs] using ht

theorem size_next {d : Device} (h : d.isOver = false) : d.next.2.size < d.size := by
  have hb := d.size_byte.2 h
  unfold next
  rcases hd : d.byte with ⟨_ | _ | b, t⟩ <;> rw [hd] at hb
  · exact hb
  · exact hb
  · exact Nat.lt_of_le_of_lt (t.size_symbol b) hb

/-- The replies until the device is over, behind those in `replies` (newest first). -/
def repliesFrom (replies : List Reply) (d : Device) : List Reply :=
  if d.isOver then replies.reverse
  else
    let r := d.next
    repliesFrom (r.1 :: replies) r.2
termination_by d.size
decreasing_by exact size_next (Bool.eq_false_iff.mpr ‹_›)

end Device

def Feed.ofReads (reads : List Read) : Feed := ofReplies (Device.repliesFrom [] ⟨[], reads⟩)

end Munch
