import Mathlib.Algebra.Ring.Nat
import Mathlib.Data.List.Basic
import Mathlib.Data.Option.Basic
import Abnf.Cache.Wire

/-!
# What is written is read again

Each writer has a reader that takes off the front of some bytes just what was written there and
leaves the rest, as long as numbers fit in their fields. The length of a list or a text always
fits, because at least as many bytes are written.

* `Varint.run_read_write`: numbers of varying width are read again.
* `codes_list`, `codes_text`, `codes_opcode`, `codes_finding`: so are the values made of them.
-/

namespace Abnf

/-- The positions that an opcode carries. -/
def Opcode.indices : Opcode → List Nat
  | .alt children | .cat children => children
  | .rnm index | .udt index _ | .bkr index .. => [index]
  | _ => []

namespace Cache

/-! ## Numbers -/

theorem length_littleEndian (width n : Nat) : (littleEndian width n).length = width := by
  induction width generalizing n with
  | zero => rfl
  | succ width ih => rw [littleEndian, List.length_cons, ih]

theorem ofLittleEndian_littleEndian {width n : Nat} (h : n < 256 ^ width) :
    ofLittleEndian (littleEndian width n) = n := by
  induction width generalizing n with
  | zero =>
    rw [Nat.pow_zero, Nat.lt_one_iff] at h
    rw [h]
    rfl
  | succ width ih =>
    have hbyte : (n % 256).toUInt8.toNat = n % 256 := by simp
    rw [littleEndian, ofLittleEndian, hbyte, ih (by rw [Nat.pow_succ] at h; omega)]
    omega

theorem ofLittleEndian_lt (bytes : List UInt8) : ofLittleEndian bytes < 256 ^ bytes.length := by
  induction bytes with
  | nil => simp [ofLittleEndian]
  | cons byte bytes ih =>
    have hbyte := byte.toNat_lt
    rw [ofLittleEndian, List.length_cons, Nat.pow_succ]
    omega

@[simp] theorem run_readByte (byte : UInt8) (bytes : List UInt8) :
    readByte.run (byte :: bytes) = some (byte, bytes) := rfl

theorem run_readBytes (bytes rest : List UInt8) :
    (readBytes bytes.length).run (bytes ++ rest) = some (bytes, rest) := by
  simp [readBytes, StateT.run]

namespace Varint

theorem run_read_byte {byte : UInt8} (h : byte < 251) (width : Width) (rest : List UInt8) :
    (read width).run (byte :: rest) = some (byte.toNat, rest) := by
  simp [read, h]

theorem run_read_marker {marker : UInt8} {count : Nat} (hmarker : ¬ marker < 251)
    (hfollow : follow? marker = some count) {width : Width} (hwidth : count ≤ width.bytes)
    {n : Nat} (hn : n < 256 ^ count) (rest : List UInt8) :
    (read width).run (marker :: littleEndian count n ++ rest) = some (n, rest) := by
  have hbytes : (readBytes count).run (littleEndian count n ++ rest) =
      some (littleEndian count n, rest) := by
    have h := run_readBytes (littleEndian count n) rest
    rwa [length_littleEndian] at h
  simp [read, hmarker, hfollow, hwidth, hbytes, ofLittleEndian_littleEndian hn, guard]

theorem run_read_write {width : Width} {n : Nat} (h : n < 256 ^ width.bytes)
    (rest : List UInt8) : (read width).run (write n ++ rest) = some (n, rest) := by
  rw [write]
  split
  · rename_i hn
    have hbyte : n.toUInt8 < 251 := by
      rw [UInt8.lt_iff_toNat_lt]
      simp
      omega
    rw [List.singleton_append, run_read_byte hbyte]
    simp
    omega
  split
  · exact run_read_marker (by decide) rfl (by cases width <;> decide) (by omega) rest
  split
  · exact run_read_marker (by decide) rfl (by cases width <;> decide) (by omega) rest
  · rename_i hn
    cases width with
    | four => exact absurd h hn
    | eight => exact run_read_marker (by decide) rfl (by decide) h rest

theorem write_ne_nil (n : Nat) : write n ≠ [] := by
  unfold write
  split_ifs <;> simp

end Varint

/-! ## General values -/

/-- A reader takes off the front of some bytes what a writer has put there, provided it is good
and takes fewer bytes than a length can say. -/
structure Codes {α : Type} (write : α → List UInt8) (read : Reader α) (Good : α → Prop) :
    Prop where
  ne_nil : ∀ a, write a ≠ []
  reads : ∀ {a}, Good a → (write a).length < 2 ^ 64 → ∀ rest,
    read.run (write a ++ rest) = some (a, rest)

section

variable {α β : Type} {write : α → List UInt8} {read : Reader α} {Good : α → Prop}

theorem codes_index : Codes Varint.write readIndex (· < 2 ^ 64) :=
  ⟨Varint.write_ne_nil, fun h _ => @Varint.run_read_write .eight _ h⟩

theorem codes_count : Codes Varint.write (Varint.read .four) (· < 2 ^ 32) :=
  ⟨Varint.write_ne_nil, fun h _ => @Varint.run_read_write .four _ h⟩

@[simp] theorem run_readWord (word : UInt32) (rest : List UInt8) :
    readWord.run (writeWord word ++ rest) = some (word, rest) := by
  have h := @Varint.run_read_write .four _ word.toNat_lt rest
  simp [readWord, writeWord, h]

theorem codes_word : Codes writeWord readWord fun _ => True :=
  ⟨fun _ => Varint.write_ne_nil _, fun _ _ => run_readWord _⟩

@[simp] theorem run_readFlag (flag : Bool) (rest : List UInt8) :
    readFlag.run (writeFlag flag ++ rest) = some (flag, rest) := by
  cases flag <;> simp [writeFlag, readFlag, guard]

theorem codes_flag : Codes writeFlag readFlag fun _ => True :=
  ⟨by simp [writeFlag], fun _ _ => run_readFlag _⟩

theorem codes_option (h : Codes write read Good) :
    Codes (writeOption write) (readOption read) fun o => ∀ a ∈ o, Good a := by
  refine ⟨fun o => by cases o <;> simp [writeOption, writeFlag], fun {o} hgood hlength rest => ?_⟩
  cases o with
  | none => simp [writeOption, readOption]
  | some a =>
    rw [writeOption, List.length_append] at hlength
    simp [writeOption, readOption, h.reads (hgood a rfl) (by omega)]

theorem codes_pair {write' : β → List UInt8} {read' : Reader β} {Good' : β → Prop}
    (h : Codes write read Good) (h' : Codes write' read' Good') :
    Codes (fun p => write p.1 ++ write' p.2) (do return (← read, ← read'))
      fun p => Good p.1 ∧ Good' p.2 := by
  refine ⟨fun p => by simp [h.ne_nil], fun {p} hgood hlength rest => ?_⟩
  simp only [List.length_append] at hlength
  simp [h.reads hgood.1 (by omega), h'.reads hgood.2 (by omega)]

/-! ### Lists and texts -/

theorem Codes.length_le (h : Codes write read Good) (as : List α) :
    as.length ≤ (as.flatMap write).length := by
  induction as with
  | nil => simp
  | cons a as ih =>
    have hpos := List.length_pos_iff.2 (h.ne_nil a)
    rw [List.flatMap_cons, List.length_append, List.length_cons]
    omega

theorem Codes.run_readMany (h : Codes write read Good) {as : List α} (hgood : ∀ a ∈ as, Good a)
    (hlength : (as.flatMap write).length < 2 ^ 64) (rest : List UInt8) :
    (readMany read as.length).run (as.flatMap write ++ rest) = some (as, rest) := by
  induction as with
  | nil => rfl
  | cons a as ih =>
    rw [List.flatMap_cons, List.length_append] at hlength
    have htail := ih (fun b hb => hgood b (by simp [hb])) (by omega)
    simp [readMany, h.reads (hgood a (by simp)) (by omega), htail]

theorem codes_list (h : Codes write read Good) :
    Codes (writeList write) (readList read) fun as => ∀ a ∈ as, Good a := by
  refine ⟨fun as => by simp [writeList, Varint.write_ne_nil], fun {as} hgood hlength rest => ?_⟩
  rw [writeList, List.length_append] at hlength
  have hcount := h.length_le as
  have hread := @Varint.run_read_write .eight as.length (by show _ < 2 ^ 64; omega)
    (as.flatMap write ++ rest)
  simp [writeList, readList, hread, h.run_readMany hgood (by omega)]

theorem Codes.length_le_writeList (h : Codes write read Good) (as : List α) :
    as.length ≤ (writeList write as).length := by
  rw [writeList, List.length_append]
  exact Nat.le_add_left_of_le (h.length_le as)

theorem fromUTF8?_toUTF8 (text : String) :
    String.fromUTF8? ⟨text.toUTF8.data.toList.toArray⟩ = some text :=
  dif_pos text.isValidUTF8

theorem codes_text : Codes writeText readText fun _ => True := by
  refine ⟨fun text => by simp [writeText, Varint.write_ne_nil], fun {text} _ hlength rest => ?_⟩
  have hsize : text.toUTF8.data.toList.length = text.utf8ByteSize := rfl
  rw [writeText, List.length_append, hsize] at hlength
  have hcount := @Varint.run_read_write .eight text.utf8ByteSize (by show _ < 2 ^ 64; omega)
    (text.toUTF8.data.toList ++ rest)
  have hbytes := run_readBytes text.toUTF8.data.toList rest
  rw [hsize] at hbytes
  simp only [writeText, readText, StateT.run_bind, List.append_assoc, hcount, hbytes,
    Option.bind_eq_bind, Option.bind_some, fromUTF8?_toUTF8]
  rfl

@[simp] theorem run_readDigest (digest : Digest) (rest : List UInt8) :
    readDigest.run (writeDigest digest ++ rest) = some (digest, rest) := by
  obtain ⟨⟨bytes⟩, hsize⟩ := digest
  have hsize : bytes.length = 32 := hsize
  simp [readDigest, writeDigest, StateT.run, ← hsize]

end

/-! ## Opcodes -/

theorem codes_opcode : Codes writeOpcode readOpcode fun op => ∀ i ∈ op.indices, i < 2 ^ 64 := by
  refine ⟨fun op => by cases op <;> simp [writeOpcode], fun {op} hgood hlength rest => ?_⟩
  have htag : ∀ {tag : UInt8} {rest : List UInt8}, tag < 251 →
      (Varint.read .four).run (tag :: rest) = some (tag.toNat, rest) :=
    fun h => Varint.run_read_byte h _ _
  cases op with
  | alt children | cat children =>
    rw [writeOpcode, List.length_cons] at hlength
    have hchildren : ∀ i ∈ children, i < 2 ^ 64 := hgood
    simp [writeOpcode, readOpcode, htag, (codes_list codes_index).reads hchildren (by omega)]
  | rep min max =>
    rw [writeOpcode, List.length_cons, List.length_append] at hlength
    have hmax : ∀ word ∈ max, True := fun _ _ => trivial
    simp [writeOpcode, readOpcode, htag, (codes_option codes_word).reads hmax (by omega)]
  | rnm index =>
    rw [writeOpcode, List.length_cons] at hlength
    have hindex := hgood index (by simp [Opcode.indices])
    simp [writeOpcode, readOpcode, htag, codes_index.reads hindex (by omega)]
  | udt index empty =>
    rw [writeOpcode, List.length_cons, List.length_append] at hlength
    have hindex := hgood index (by simp [Opcode.indices])
    simp [writeOpcode, readOpcode, htag, codes_index.reads hindex (by omega)]
  | bkr index toUdt caseInsensitive =>
    rw [writeOpcode, List.length_cons, List.length_append, List.length_append] at hlength
    have hindex := hgood index (by simp [Opcode.indices])
    simp [writeOpcode, readOpcode, htag, codes_index.reads hindex (by omega)]
  | tls chars | tbs chars =>
    rw [writeOpcode, List.length_cons] at hlength
    have hchars : ∀ char ∈ chars, True := fun _ _ => trivial
    simp [writeOpcode, readOpcode, htag, (codes_list codes_word).reads hchars (by omega)]
  | trg min max => simp [writeOpcode, readOpcode, htag]
  | and | not | bka | bkn | abg | aen => simp [writeOpcode, readOpcode, htag]

/-! ## Classes and attributes -/

@[simp] theorem run_readKind (kind : Kind) (rest : List UInt8) :
    readKind.run (writeKind kind ++ rest) = some (kind, rest) := by
  cases kind <;> simp [writeKind, readKind, Varint.run_read_byte]

@[simp] theorem run_readAttributes (a : Attributes) (rest : List UInt8) :
    readAttributes.run (writeAttributes a ++ rest) = some (a, rest) := by
  simp [writeAttributes, readAttributes]

theorem codes_finding : Codes writeFinding readFinding fun finding =>
    (∀ group ∈ finding.1.group, group < 2 ^ 64) ∧ ∀ n ∈ finding.1.counts, n < 2 ^ 32 := by
  refine ⟨fun finding => ?_, fun {finding} hgood hlength rest => ?_⟩
  · cases h : finding.1.kind <;> simp [writeFinding, writeKind, h]
  · simp only [writeFinding, List.length_append] at hlength
    have hcounts : ∀ n ∈ finding.1.counts.toList, n < 2 ^ 32 :=
      fun n hn => hgood.2 n (Array.mem_toList_iff.1 hn)
    simp [writeFinding, readFinding, (codes_option codes_index).reads hgood.1 (by omega),
      (codes_list codes_count).reads hcounts (by omega)]

/-! ## What readers give -/

/-- All that a reader gives has a property. -/
def Gives {α : Type} (read : Reader α) (P : α → Prop) : Prop :=
  ∀ {bytes a rest}, read.run bytes = some (a, rest) → P a

theorem length_of_run_readBytes {count : Nat} {bytes taken rest : List UInt8}
    (h : (readBytes count).run bytes = some (taken, rest)) : taken.length = count := by
  simp only [readBytes, StateT.run] at h
  split at h
  · rename_i hle
    cases h
    rw [List.length_take, Nat.min_eq_left hle]
  · cases h

theorem gives_number (width : Width) : Gives (Varint.read width) (· < 256 ^ width.bytes) := by
  intro bytes n rest h
  cases bytes with
  | nil => cases h
  | cons first bytes =>
    simp only [Varint.read, StateT.run_bind, run_readByte, Option.bind_eq_bind,
      Option.bind_some] at h
    split at h
    · cases h
      have hbyte := first.toNat_lt
      cases width <;> simp [Width.bytes] <;> omega
    · simp only [StateT.run_bind, Option.bind_eq_bind, Option.bind_eq_some_iff] at h
      obtain ⟨⟨count, bytes'⟩, -, ⟨_, bytes''⟩, hguard, ⟨taken, _⟩, htaken, hpure⟩ := h
      cases hpure
      have hcount : count ≤ width.bytes := by
        by_contra hover
        rw [guard, if_neg hover] at hguard
        cases hguard
      have hlength := length_of_run_readBytes htaken
      exact Nat.lt_of_lt_of_le (ofLittleEndian_lt taken)
        (Nat.pow_le_pow_right (by decide) (hlength ▸ hcount))

theorem gives_list {α : Type} {read : Reader α} {P : α → Prop} (h : Gives read P) :
    Gives (readList read) fun as => ∀ a ∈ as, P a := by
  have hmany : ∀ count, Gives (readMany read count) fun as => ∀ a ∈ as, P a := by
    intro count
    induction count with
    | zero =>
      intro bytes as rest hread
      cases hread
      simp
    | succ count ih =>
      intro bytes as rest hread
      simp only [readMany, StateT.run_bind, Option.bind_eq_bind, Option.bind_eq_some_iff] at hread
      obtain ⟨⟨a, bytes'⟩, ha, ⟨as', bytes''⟩, has, hpure⟩ := hread
      cases hpure
      exact List.forall_mem_cons.2 ⟨h ha, ih has⟩
  intro bytes as rest hread
  simp only [readList, StateT.run_bind, Option.bind_eq_bind, Option.bind_eq_some_iff] at hread
  obtain ⟨⟨count, bytes'⟩, -, hread⟩ := hread
  exact hmany count hread

theorem gives_finding : Gives readFinding fun finding => ∀ n ∈ finding.1.counts, n < 2 ^ 32 := by
  intro bytes finding rest hread
  simp only [readFinding, StateT.run_bind, Option.bind_eq_bind, Option.bind_eq_some_iff] at hread
  obtain ⟨_, -, _, -, _, -, ⟨counts, _⟩, hcounts, hpure⟩ := hread
  cases hpure
  intro n hn
  exact gives_list (gives_number .four) hcounts n (by simpa using hn)

end Cache

end Abnf
