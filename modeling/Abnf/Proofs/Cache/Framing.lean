import Abnf.Proofs.Cache.RoundTrip

/-!
# The frame of a cache

What is read of a cache without looking into its payload. The length of the header is checked
first, then what the file is, the version, the length of the payload and its digest, each before
any byte that only a later check asks for. So a cache that is cut anywhere is refused for its
length, bytes behind the payload and in the fields that no reader asks for do not matter, and
another payload in place of the one that was saved is refused for its digest.

* `payloadOf_headerWith`: what is found behind a header of the right kind and version.
* `framing_exact`: which changes to a cache are refused, and for what reason.
-/

namespace Abnf.Cache

variable {hash : List UInt8 → Digest} {grammar : Grammar}

/-! ## Headers -/

/-- The lowest bytes of a number are the bytes that it was read from. -/
theorem littleEndian_ofLittleEndian (bytes : List UInt8) :
    littleEndian bytes.length (ofLittleEndian bytes) = bytes := by
  induction bytes with
  | nil => rfl
  | cons byte bytes ih =>
    have hbyte := byte.toNat_lt
    have hlow : (byte.toNat + 256 * ofLittleEndian bytes) % 256 = byte.toNat := by omega
    have hhigh : (byte.toNat + 256 * ofLittleEndian bytes) / 256 = ofLittleEndian bytes := by omega
    rw [ofLittleEndian, List.length_cons, littleEndian, hlow, hhigh, ih]
    simp

/-- A header of the right kind and version. The six bytes `unread` are the version of the program
and the flags. -/
def headerWith (unread : List UInt8) (length : Nat) (sum : List UInt8) : List UInt8 :=
  magic ++ littleEndian 2 formatVersion ++ unread ++ littleEndian 4 length ++ sum

theorem header_eq (hash : List UInt8 → Digest) (payload : List UInt8) :
    header hash payload = headerWith (littleEndian 2 programVersion ++ littleEndian 4 0)
      payload.length (checksum hash payload) := by
  simp only [header, headerWith, List.append_assoc]

section

variable {unread sum : List UInt8} (hunread : unread.length = 6) (hsum : sum.length = 16)
include hunread hsum

theorem length_headerWith (length : Nat) : (headerWith unread length sum).length = headerSize := by
  simp only [headerWith, List.length_append, length_littleEndian, hunread, hsum]
  rfl

/-- Behind a header of the right kind and version, the length of the payload is checked before its
digest. -/
theorem payloadOf_headerWith {length : Nat} (hlength : length < 2 ^ 32) (behind : List UInt8) :
    payloadOf hash (headerWith unread length sum ++ behind) =
      if behind.length < length then .error (.length length behind.length)
      else if checksum hash (behind.take length) ≠ sum then .error .checksum
      else .ok (behind.take length) := by
  have hheader := length_headerWith hunread hsum length
  have hmagic : slice (headerWith unread length sum ++ behind) 0 4 = magic :=
    slice_eq [] (by simp only [headerWith, List.append_assoc, List.nil_append]; rfl) rfl rfl
  have hversion : slice (headerWith unread length sum ++ behind) 4 2 =
      littleEndian 2 formatVersion :=
    slice_eq magic (by simp only [headerWith, List.append_assoc]; rfl) rfl rfl
  have hcount : slice (headerWith unread length sum ++ behind) 12 4 = littleEndian 4 length :=
    slice_eq (magic ++ littleEndian 2 formatVersion ++ unread)
      (by simp only [headerWith, List.append_assoc]; rfl)
      (by simp [magic, length_littleEndian, hunread]) (length_littleEndian 4 length)
  have hdigest : slice (headerWith unread length sum ++ behind) 16 16 = sum :=
    slice_eq (magic ++ littleEndian 2 formatVersion ++ unread ++ littleEndian 4 length)
      (by simp only [headerWith, List.append_assoc]; rfl)
      (by simp [magic, length_littleEndian, hunread]) hsum
  have hpayload : slice (headerWith unread length sum ++ behind) headerSize length =
      behind.take length := by
    rw [slice, List.drop_left' hheader]
  have hright : ofLittleEndian (littleEndian 2 formatVersion) = formatVersion := rfl
  have hread : ofLittleEndian (littleEndian 4 length) = length :=
    ofLittleEndian_littleEndian hlength
  have hfits : ¬ headerSize + behind.length < headerSize := by omega
  simp only [payloadOf, List.length_append, hheader, hmagic, hversion, hcount, hread, hdigest,
    hpayload, hfits, hright, Nat.add_sub_cancel_left, Nat.add_lt_add_iff_left, if_false, ne_eq,
    not_true_eq_false]
  by_cases hshort : behind.length < length
  · rw [if_pos hshort, if_pos hshort]
    rfl
  rw [if_neg hshort, if_neg hshort]
  by_cases hdiffers : ¬ checksum hash (behind.take length) = sum
  · rw [if_pos hdiffers, if_pos hdiffers]
    rfl
  · rw [if_neg hdiffers, if_neg hdiffers]
    rfl

end

/-! ## Loading -/

theorem load_of_payloadOf_error {bytes : List UInt8} {e : LoadError}
    (h : payloadOf hash bytes = .error e) : load hash bytes = .error e := by
  rw [load, h]
  rfl

/-- Only the payload decides what is loaded. -/
theorem load_congr {bytes bytes' : List UInt8} (h : payloadOf hash bytes = payloadOf hash bytes') :
    load hash bytes = load hash bytes' := by
  rw [load, load, h]

theorem load_of_magic {bytes : List UInt8} (hlength : headerSize ≤ bytes.length)
    (h : slice bytes 0 4 ≠ magic) : load hash bytes = .error .magic := by
  refine load_of_payloadOf_error ?_
  rw [payloadOf, if_neg (Nat.not_lt.2 hlength), if_pos h]
  rfl

/-- Other bytes in place of those of the version are another version. -/
theorem ne_formatVersion {bytes : List UInt8} (hlength : headerSize ≤ bytes.length)
    (h : slice bytes 4 2 ≠ littleEndian 2 formatVersion) :
    ofLittleEndian (slice bytes 4 2) ≠ formatVersion := by
  have hsize : (slice bytes 4 2).length = 2 := by
    rw [headerSize] at hlength
    simp only [slice, List.length_take, List.length_drop]
    omega
  intro heq
  have hbytes := littleEndian_ofLittleEndian (slice bytes 4 2)
  rw [hsize, heq] at hbytes
  exact h hbytes.symm

theorem load_of_version {bytes : List UInt8} (hlength : headerSize ≤ bytes.length)
    (hmagic : slice bytes 0 4 = magic) (h : ofLittleEndian (slice bytes 4 2) ≠ formatVersion) :
    load hash bytes = .error (.version (ofLittleEndian (slice bytes 4 2))) := by
  refine load_of_payloadOf_error ?_
  rw [payloadOf, if_neg (Nat.not_lt.2 hlength), if_neg (not_not.2 hmagic)]
  simp only [if_pos h]
  rfl

/-! ## Caches of grammars -/

/-- A grammar that was compiled or loaded, and whose payload is not too long for a header. -/
structure Cacheable (hash : List UInt8 → Digest) (grammar : Grammar) : Prop where
  origin : (∃ strict sources, compile strict sources = .ok (.ok grammar)) ∨
    ∃ bytes, load hash bytes = .ok grammar
  short : (Payload.ofGrammar hash grammar).write.length < 2 ^ 32

/-- A cacheable grammar has a valid payload, which holds the grammar. -/
theorem Cacheable.payload (h : Cacheable hash grammar) :
    (Payload.ofGrammar hash grammar).Valid hash ∧
      (Payload.ofGrammar hash grammar).toGrammar = grammar ∧
      ∀ finding ∈ (Payload.ofGrammar hash grammar).findings,
        ∀ n ∈ finding.1.counts, n < 2 ^ 32 := by
  rcases h.origin with ⟨strict, sources, hcompile⟩ | ⟨bytes, hload⟩
  · have hchecked := checked_of_compile hcompile
    have hsize : grammar.analysis.classes.size = grammar.analysis.attributes.size := by
      obtain ⟨_, hexact, hclasses, -⟩ := hchecked.exists_classifies
      rw [hchecked.size_attributes, hclasses, hexact.size]
    exact ⟨valid_ofGrammar hchecked, toGrammar_ofGrammar hchecked.tabled.index
      (fun _ _ => index_udts_of_compileText hcompile) hsize, count_lt_of_checked hchecked h.short⟩
  · obtain ⟨payload, hvalid, rfl, hcounts⟩ := exists_payload_of_load hload
    rw [ofGrammar_toGrammar hvalid]
    exact ⟨hvalid, rfl, hcounts⟩

/-- A cacheable grammar is loaded from whatever holds its payload. -/
theorem Cacheable.load_of_payloadOf (h : Cacheable hash grammar) {bytes : List UInt8}
    (hbytes : payloadOf hash bytes = .ok (Payload.ofGrammar hash grammar).write) :
    load hash bytes = .ok grammar := by
  obtain ⟨hvalid, hsame, hcounts⟩ := h.payload
  rw [load_congr (hbytes.trans (payloadOf_header h.short).symm), load_write hvalid hcounts h.short,
    hsame]

/-- What is found behind the header of a saved grammar, whatever stands there. -/
theorem Cacheable.payloadOf_append (h : Cacheable hash grammar) (behind : List UInt8) :
    payloadOf hash (header hash (Payload.ofGrammar hash grammar).write ++ behind) =
      if behind.length < (Payload.ofGrammar hash grammar).write.length then
        .error (.length (Payload.ofGrammar hash grammar).write.length behind.length)
      else if checksum hash (behind.take (Payload.ofGrammar hash grammar).write.length) ≠
          checksum hash (Payload.ofGrammar hash grammar).write then .error .checksum
      else .ok (behind.take (Payload.ofGrammar hash grammar).write.length) := by
  rw [header_eq]
  exact payloadOf_headerWith rfl (length_checksum hash _) h.short behind

theorem length_header (hash : List UInt8 → Digest) (payload : List UInt8) :
    (header hash payload).length = headerSize := by
  rw [header_eq]
  exact length_headerWith rfl (length_checksum hash payload) payload.length

/-- A cacheable grammar is loaded from its payload behind any header of the right kind and version
that tells its length and its digest, whatever stands behind the payload. -/
theorem Cacheable.load_headerWith (h : Cacheable hash grammar) {unread : List UInt8}
    (hunread : unread.length = 6) (behind : List UInt8) :
    load hash (headerWith unread (Payload.ofGrammar hash grammar).write.length
      (checksum hash (Payload.ofGrammar hash grammar).write) ++
        ((Payload.ofGrammar hash grammar).write ++ behind)) = .ok grammar := by
  refine h.load_of_payloadOf ?_
  rw [payloadOf_headerWith hunread (length_checksum hash _) h.short, List.take_left,
    if_neg (by simp), if_neg (by simp)]

/-- The bytes of a saved grammar, with other bytes in the fields that no reader asks for. -/
theorem save_unread (hash : List UInt8 → Digest) (grammar : Grammar) (unread : List UInt8) :
    (save hash grammar).take 6 ++ unread ++ (save hash grammar).drop 12 =
      headerWith unread (Payload.ofGrammar hash grammar).write.length
        (checksum hash (Payload.ofGrammar hash grammar).write) ++
          (Payload.ofGrammar hash grammar).write := by
  simp only [save, header, headerWith, List.append_assoc]
  rfl

/-- A cache that is cut off is refused for its length. -/
theorem Cacheable.load_prefix (h : Cacheable hash grammar) {front : List UInt8}
    (hfront : front <+: save hash grammar) (hproper : front ≠ save hash grammar) :
    load hash front = .error (if front.length < headerSize then .length headerSize front.length
      else .length (Payload.ofGrammar hash grammar).write.length (front.length - headerSize)) := by
  refine load_of_payloadOf_error ?_
  have hheader := length_header hash (Payload.ofGrammar hash grammar).write
  split
  · rename_i hshort
    rw [payloadOf, if_pos hshort]
    rfl
  · rename_i hlong
    obtain ⟨behind, rfl⟩ : header hash (Payload.ofGrammar hash grammar).write <+: front :=
      List.prefix_of_prefix_length_le (List.prefix_append _ _) hfront (by omega)
    have hlt : behind.length < (Payload.ofGrammar hash grammar).write.length := by
      have hle := hfront.length_le
      have hne : ¬ (header hash (Payload.ofGrammar hash grammar).write ++ behind).length =
          (save hash grammar).length := fun heq => hproper (hfront.eq_of_length heq)
      simp only [save, List.length_append] at hle hne
      omega
    rw [h.payloadOf_append, if_pos hlt, List.length_append, hheader, Nat.add_sub_cancel_left]

/-- Another payload of the same length is refused for its digest. -/
theorem Cacheable.load_replaced (h : Cacheable hash grammar) {payload : List UInt8}
    (hlength : payload.length = (Payload.ofGrammar hash grammar).write.length)
    (hdiffers : checksum hash payload ≠ checksum hash (Payload.ofGrammar hash grammar).write) :
    load hash ((save hash grammar).take headerSize ++ payload) = .error .checksum := by
  refine load_of_payloadOf_error ?_
  rw [save, List.take_left' (length_header hash _), h.payloadOf_append, if_neg (by omega),
    List.take_of_length_le (Nat.le_of_eq hlength), if_pos hdiffers]

/-! ## All changes -/

/-- What becomes of a cache that is changed. A grammar that was compiled or loaded is loaded from
the bytes to which it is saved. If they are cut off anywhere they are refused for their length: for
that of the header if the cut is there, and else for that of the payload. Bytes behind them and in
the fields for the version of the program and the flags do not matter. Another payload of the same
length is refused unless its digest begins alike. Whatever else they hold, bytes with room for a
header are no cache if they begin otherwise, and are of another version if the version differs. -/
theorem framing_exact (hash : List UInt8 → Digest) :
    (∀ grammar, Cacheable hash grammar →
      load hash (save hash grammar) = .ok grammar ∧
      (∀ front, front <+: save hash grammar → front ≠ save hash grammar →
        load hash front = .error (if front.length < headerSize then
            .length headerSize front.length
          else .length ((save hash grammar).length - headerSize) (front.length - headerSize))) ∧
      (∀ behind, load hash (save hash grammar ++ behind) = .ok grammar) ∧
      (∀ version flags : List UInt8, version.length = 2 → flags.length = 4 → ∀ behind,
        load hash ((save hash grammar).take 6 ++ (version ++ flags) ++
          (save hash grammar).drop 12 ++ behind) = .ok grammar) ∧
      ∀ payload, payload.length = ((save hash grammar).drop headerSize).length →
        checksum hash payload ≠ checksum hash ((save hash grammar).drop headerSize) →
          load hash ((save hash grammar).take headerSize ++ payload) = .error .checksum) ∧
    ∀ bytes, headerSize ≤ bytes.length →
      (slice bytes 0 4 ≠ magic → load hash bytes = .error .magic) ∧
      (slice bytes 0 4 = magic → slice bytes 4 2 ≠ littleEndian 2 formatVersion →
        load hash bytes = .error (.version (ofLittleEndian (slice bytes 4 2)))) := by
  refine ⟨fun grammar h => ?_, fun bytes hlength => ⟨load_of_magic hlength, ?_⟩⟩
  · have hpayload : (save hash grammar).drop headerSize = (Payload.ofGrammar hash grammar).write :=
      List.drop_left' (length_header hash _)
    have hlength : (save hash grammar).length - headerSize =
        (Payload.ofGrammar hash grammar).write.length := by
      rw [← hpayload, List.length_drop]
    rw [hpayload, hlength]
    refine ⟨h.load_of_payloadOf (payloadOf_header h.short), fun front => h.load_prefix, ?_, ?_,
      fun payload => h.load_replaced⟩
    · intro behind
      rw [save, header_eq, List.append_assoc]
      exact h.load_headerWith rfl behind
    · intro version flags hversion hflags behind
      rw [save_unread, List.append_assoc]
      exact h.load_headerWith (by rw [List.length_append, hversion, hflags]) behind
  · exact fun hmagic hversion => load_of_version hlength hmagic (ne_formatVersion hlength hversion)

/-- The grammar of `A=""`, saved with BLAKE3 digests, and what becomes of the bytes: cut within the
header and within the payload, with other fields and a byte behind them, with a payload of zeros,
and two headers that are not right. -/
theorem framing_exact_empty :
    ∃ grammar, compile false ["A=\"\"\n"] = .ok (.ok grammar) ∧
      Cacheable Blake3.hash grammar ∧
      load Blake3.hash ((save Blake3.hash grammar).take 31) = .error (.length 32 31) ∧
      load Blake3.hash ((save Blake3.hash grammar).take 40) = .error (.length 61 8) ∧
      load Blake3.hash ((save Blake3.hash grammar).take 6 ++ ([7, 7] ++ [1, 2, 3, 4]) ++
        (save Blake3.hash grammar).drop 12 ++ [0]) = .ok grammar ∧
      load Blake3.hash ((save Blake3.hash grammar).take headerSize ++ List.replicate 61 0) =
        .error .checksum ∧
      load Blake3.hash (List.replicate 32 0) = .error .magic ∧
      load Blake3.hash (magic ++ [2, 1] ++ List.replicate 26 0) = .error (.version 258) := by
  have hpayload : (Payload.ofGrammar Blake3.hash emptyPhrase).write.length = 61 := by
    rw [length_write_ofGrammar _ fun _ => Vector.replicate 32 0]
    decide +kernel
  have hdiffers : checksum Blake3.hash (List.replicate 61 0) ≠
      checksum Blake3.hash (Payload.ofGrammar Blake3.hash emptyPhrase).write := by
    decide +kernel
  have hheader := length_header Blake3.hash (Payload.ofGrammar Blake3.hash emptyPhrase).write
  have hlength : (save Blake3.hash emptyPhrase).length = 93 := by
    rw [save, List.length_append, hheader, hpayload]
    rfl
  have hcacheable : Cacheable Blake3.hash emptyPhrase :=
    ⟨Or.inl ⟨_, _, compile_emptyPhrase⟩, by omega⟩
  obtain ⟨hgrammars, hheaders⟩ := framing_exact Blake3.hash
  obtain ⟨-, hshort, -, hunread, hreplaced⟩ := hgrammars emptyPhrase hcacheable
  have hcut : ∀ n < 93, (save Blake3.hash emptyPhrase).take n <+: save Blake3.hash emptyPhrase ∧
      (save Blake3.hash emptyPhrase).take n ≠ save Blake3.hash emptyPhrase ∧
      ((save Blake3.hash emptyPhrase).take n).length = n := by
    intro n hn
    have hsize : ((save Blake3.hash emptyPhrase).take n).length = n := by
      rw [List.length_take]
      omega
    refine ⟨List.take_prefix _ _, fun heq => ?_, hsize⟩
    rw [heq] at hsize
    omega
  refine ⟨emptyPhrase, compile_emptyPhrase, hcacheable, ?_, ?_, hunread _ _ rfl rfl _, ?_, ?_, ?_⟩
  · obtain ⟨hfront, hproper, hsize⟩ := hcut 31 (by decide)
    rw [hshort _ hfront hproper, hsize]
    rfl
  · obtain ⟨hfront, hproper, hsize⟩ := hcut 40 (by decide)
    rw [hshort _ hfront hproper, hsize, hlength]
    rfl
  · refine hreplaced _ ?_ ?_
    · rw [List.length_replicate, List.length_drop, hlength]
      rfl
    · rwa [save, List.drop_left' hheader]
  · exact (hheaders _ (by decide)).1 (by decide)
  · exact (hheaders _ (by decide)).2 (by decide) (by decide)

end Abnf.Cache
