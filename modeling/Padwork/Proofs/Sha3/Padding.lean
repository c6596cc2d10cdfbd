import Padwork.Proofs.Sha3.Digest

/-!
# A message from its blocks

The last block of a message ends with its padding, and the padding says where it begins:
behind the domain byte, seen from the end of the block, stand only zeros, and where there
is no room for a byte of its own the last bit is in the domain byte. So a message can be
read off the blocks in which it reaches the sponge, and different messages have different
blocks. It makes no difference in which pieces the message came.
-/
namespace Padwork.Sha3
open Parameters

/-! ## What stands before a padding -/

/-- The bytes before the padding that a byte string ends with. -/
def beforePadding? (bytes : Bytes) : Option Bytes :=
  match bytes.reverse with
  | [] => none
  | last :: earlier =>
    if last = 0x86 then some earlier.reverse
    else if last = 0x80 then
      match earlier.dropWhile (· == 0) with
      | [] => none
      | mark :: front => if mark = domain then some front.reverse else none
    else none

theorem beforePadding?_append_padding (front : Bytes) (zeros : Nat) :
    beforePadding? (front ++ padding zeros) = some front := by
  cases zeros with
  | zero => simp [beforePadding?, padding]
  | succ zeros =>
    have hreverse : (front ++ padding (zeros + 1)).reverse =
        0x80 :: (List.replicate zeros 0 ++ domain :: front.reverse) := by
      simp [padding]
    have hzeros : (List.replicate zeros 0 ++ domain :: front.reverse).dropWhile (· == 0) =
        domain :: front.reverse := by
      rw [List.dropWhile_append_of_pos (by simp)]
      rfl
    rw [beforePadding?, hreverse]
    simp [hzeros]

/-- Bytes of which only zeros are dropped begin with as many zeros. -/
theorem eq_replicate_append_of_dropWhile {bytes rest : Bytes}
    (h : bytes.dropWhile (· == 0) = rest) :
    ∃ zeros, bytes = List.replicate zeros 0 ++ rest := by
  refine ⟨(bytes.takeWhile (· == 0)).length, ?_⟩
  have hzeros : bytes.takeWhile (· == 0) =
      List.replicate (bytes.takeWhile (· == 0)).length 0 := by
    refine List.eq_replicate_iff.mpr ⟨rfl, fun byte hbyte => ?_⟩
    exact eq_of_beq (List.all_eq_true.mp List.all_takeWhile byte hbyte)
  rw [← hzeros, ← h, List.takeWhile_append_dropWhile]

theorem exists_padding_of_beforePadding? {bytes front : Bytes}
    (h : beforePadding? bytes = some front) : ∃ zeros, bytes = front ++ padding zeros := by
  obtain ⟨backwards, rfl⟩ : ∃ backwards : Bytes, bytes = backwards.reverse :=
    ⟨bytes.reverse, bytes.reverse_reverse.symm⟩
  rw [beforePadding?, List.reverse_reverse] at h
  split at h
  · cases h
  · next last earlier =>
    split at h
    · next hlast =>
      cases h
      exact ⟨0, by rw [hlast, List.reverse_cons, padding]⟩
    · split at h
      · next hlast =>
        split at h
        · cases h
        · next mark behind hdrop =>
          split at h
          · next hmark =>
            cases h
            obtain ⟨zeros, hearlier⟩ := eq_replicate_append_of_dropWhile hdrop
            exact ⟨zeros + 1, by simp [hlast, hearlier, hmark, padding]⟩
          · cases h
      · cases h

theorem beforePadding?_eq_some_iff {bytes front : Bytes} :
    beforePadding? bytes = some front ↔ ∃ zeros, bytes = front ++ padding zeros := by
  constructor
  · exact exists_padding_of_beforePadding?
  · rintro ⟨zeros, rfl⟩
    exact beforePadding?_append_padding front zeros

theorem length_padding (zeros : Nat) : (padding zeros).length = zeros + 1 := by
  cases zeros <;> simp [padding]

/-! ## Blocks -/

theorem bytesOf_injective {blocks other : List Block} (h : bytesOf blocks = bytesOf other) :
    blocks = other := by
  have hrate : ([] : Bytes).length < rate := by decide
  have hrest : bytesOf blocks ++ [] = bytesOf other ++ [] := congrArg (· ++ []) h
  exact (eq_of_bytesOf_append_eq hrate hrate hrest).1

theorem blocksOf_eq_iff {data : Bytes} {blocks : List Block} :
    blocksOf data = blocks ↔
      bytesOf blocks = data ++ padding (rate - 1 - data.length % rate) := by
  rw [← bytesOf_blocksOf]
  constructor
  · rintro rfl
    rfl
  · intro h
    exact (bytesOf_injective h).symm

theorem length_blocksOf (data : Bytes) : (blocksOf data).length = data.length / rate + 1 := by
  have hbytes := congrArg List.length (bytesOf_blocksOf data)
  have hmod : data.length % rate < rate := Nat.mod_lt _ (by decide)
  have hdiv := Nat.div_add_mod data.length rate
  rw [length_bytesOf, List.length_append, length_padding] at hbytes
  simp only [rate] at *
  omega

theorem blocksOf_append (b : Block) (data : Bytes) :
    blocksOf (b.toList ++ data) = b :: blocksOf data := by
  have hlength : (b.toList ++ data).length % rate = data.length % rate := by
    rw [List.length_append, Vector.length_toList, Nat.add_mod_left]
  rw [blocksOf_eq_iff, bytesOf_cons, bytesOf_blocksOf, hlength, List.append_assoc]

/-- The message of a sequence of blocks, if they are those of a message. -/
def message? : List Block → Option Bytes
  | [] => none
  | [last] => beforePadding? last.toList
  | b :: next :: blocks => (message? (next :: blocks)).map (b.toList ++ ·)

theorem message?_singleton_eq_some_iff {last : Block} {data : Bytes} :
    message? [last] = some data ↔ blocksOf data = [last] := by
  rw [message?, beforePadding?_eq_some_iff, blocksOf_eq_iff, bytesOf_cons, bytesOf_nil,
    List.append_nil]
  constructor
  · rintro ⟨zeros, hlast⟩
    have hlength := congrArg List.length hlast
    rw [Vector.length_toList, List.length_append, length_padding] at hlength
    have hzeros : zeros = rate - 1 - data.length % rate := by
      rw [Nat.mod_eq_of_lt (by omega)]
      omega
    rw [hlast, hzeros]
  · intro hlast
    exact ⟨_, hlast⟩

/-- A sequence of blocks has a message just when it is that of the message. -/
theorem message?_eq_some_iff {blocks : List Block} {data : Bytes} :
    message? blocks = some data ↔ blocksOf data = blocks := by
  induction blocks generalizing data with
  | nil =>
    constructor
    · intro h
      cases h
    · intro h
      have hlength := length_blocksOf data
      rw [h] at hlength
      cases hlength
  | cons b blocks ih =>
    cases blocks with
    | nil => exact message?_singleton_eq_some_iff
    | cons next blocks =>
      rw [message?, Option.map_eq_some_iff]
      constructor
      · rintro ⟨rest, hrest, rfl⟩
        rw [blocksOf_append, ih.mp hrest]
      · intro h
        -- there is a block behind the first, so the message fills the first
        have hlength := length_blocksOf data
        have hbytes := blocksOf_eq_iff.mp h
        have hrate : rate ≤ data.length := by
          rw [h, List.length_cons, List.length_cons] at hlength
          refine Nat.le_of_not_lt fun hlt => ?_
          rw [Nat.div_eq_of_lt hlt] at hlength
          omega
        have hfirst : b.toList = data.take rate := by
          have htake := congrArg (List.take rate) hbytes
          rwa [bytesOf_cons, List.take_left' (Vector.length_toList),
            List.take_append_of_le_length hrate] at htake
        have hdata : data = b.toList ++ data.drop rate := by
          rw [hfirst, List.take_append_drop]
        refine ⟨data.drop rate, ih.mpr ?_, hdata.symm⟩
        rw [hdata, blocksOf_append] at h
        exact (List.cons.inj h).2

/-! ## Pieces -/

/-- The blocks that leave a buffer while pieces are pushed into it one after the other, and the
buffer after that. -/
def Buffer.pushAll (b : Buffer) : List Bytes → List Block × Buffer
  | [] => ([], b)
  | piece :: pieces =>
    let (blocks, next) := b.push piece
    let (more, last) := next.pushAll pieces
    (blocks ++ more, last)

theorem Buffer.bytes_pushAll (b : Buffer) (pieces : List Bytes) :
    bytesOf (b.pushAll pieces).1 ++ (b.pushAll pieces).2.bytes = b.bytes ++ pieces.flatten := by
  induction pieces generalizing b with
  | nil => rw [pushAll, bytesOf_nil, List.nil_append, List.flatten_nil, List.append_nil]
  | cons piece pieces ih =>
    rw [pushAll, bytesOf_append, List.append_assoc, ih, ← List.append_assoc, bytes_push,
      List.append_assoc, List.flatten_cons]

/-- The blocks that a fresh hasher absorbs when it is fed these pieces and its digest is read. -/
def absorbed (pieces : List Bytes) : List Block :=
  (Buffer.empty.pushAll pieces).1 ++ [(Buffer.empty.pushAll pieces).2.closed]

theorem Hasher.foldl_update (h : Hasher) (pieces : List Bytes) :
    pieces.foldl update h =
      ⟨(h.buffer.pushAll pieces).1.foldl absorb h.state, (h.buffer.pushAll pieces).2⟩ := by
  induction pieces generalizing h with
  | nil => rfl
  | cons piece pieces ih => rw [List.foldl_cons, ih, Buffer.pushAll, List.foldl_append, update]

/-- The digest that is read is squeezed out of the state after these blocks. -/
theorem digest_eq_squeeze_absorbed (pieces : List Bytes) :
    (pieces.foldl Hasher.update .empty).digest =
      Sha3.squeeze ((absorbed pieces).foldl Sha3.absorb .zero) := by
  rw [Hasher.foldl_update, Hasher.digest, absorbed, List.foldl_append, List.foldl_cons,
    List.foldl_nil, Hasher.empty]

/-- The blocks do not show where one piece ended and the next began. -/
theorem absorbed_eq_blocksOf (pieces : List Bytes) : absorbed pieces = blocksOf pieces.flatten := by
  have hpieces := Buffer.bytes_pushAll .empty pieces
  have hwhole := Buffer.bytes_push .empty pieces.flatten
  obtain ⟨hblocks, hclosed⟩ := Buffer.eq_of_bytesOf_append_bytes_eq (hpieces.trans hwhole.symm)
  rw [absorbed, blocksOf, hblocks, hclosed]

/-- The blocks that a hasher absorbs while it is fed a message and its digest is read are one more
than the message fills, and the message can be read off them. So they are the same for two messages
only if these are one message. No other sequence of blocks has a message. -/
theorem absorbed_gives_message :
    (∀ pieces other, absorbed pieces = absorbed other ↔ pieces.flatten = other.flatten) ∧
      (∀ pieces, message? (absorbed pieces) = some pieces.flatten ∧
        (absorbed pieces).length = pieces.flatten.length / 136 + 1 ∧
        (pieces.foldl Hasher.update .empty).digest =
          squeeze ((absorbed pieces).foldl absorb .zero)) ∧
      ∀ blocks data, message? blocks = some data ↔ absorbed [data] = blocks := by
  have hmessage (pieces : List Bytes) : message? (absorbed pieces) = some pieces.flatten :=
    message?_eq_some_iff.mpr (absorbed_eq_blocksOf pieces).symm
  refine ⟨?_, ?_, ?_⟩
  · intro pieces other
    constructor
    · intro h
      have hsame := hmessage other
      rw [← h, hmessage pieces] at hsame
      exact Option.some.inj hsame
    · intro h
      rw [absorbed_eq_blocksOf, absorbed_eq_blocksOf, h]
  · intro pieces
    refine ⟨hmessage pieces, ?_, digest_eq_squeeze_absorbed pieces⟩
    rw [absorbed_eq_blocksOf]
    exact length_blocksOf _
  · intro blocks data
    rw [message?_eq_some_iff, absorbed_eq_blocksOf, List.flatten_singleton]

end Padwork.Sha3
