import ChordChat.Blocks.Chaining
import ChordChat.ID
import ChordChat.Radix.BigEndian

/-!
# The digest and the standard (sha1.cpp, ID.cpp)

`Standard` is SHA-1 as the standard defines it: the message padded to blocks of 64
bytes, a schedule of 80 words for each block, and the compression function chained
over the blocks. The class gives the same digest however the message is cut into
calls of `addBytes` (`getDigest_pieces`), so an ID is the digest of the name, and two
names have one ID exactly when their chains merge at a collision of the compression
function (`same_id_iff`).
-/

namespace ChordChat
namespace Sha1

/-! ### The standard -/

namespace Standard

def ch (x y z : Uint32) : Uint32 := (x &&& y) ^^^ (~~~x &&& z)

def parity (x y z : Uint32) : Uint32 := x ^^^ y ^^^ z

def maj (x y z : Uint32) : Uint32 := (x &&& y) ^^^ (x &&& z) ^^^ (y &&& z)

def function (t : ℕ) : Uint32 → Uint32 → Uint32 → Uint32 :=
  if t < 20 then ch else if t < 40 then parity else if t < 60 then maj else parity

def constant (t : ℕ) : Uint32 :=
  if t < 20 then 0x5a827999 else if t < 40 then 0x6ed9eba1
  else if t < 60 then 0x8f1bbcdc else 0xca62c1d6

def word (block : Bytes) (t : ℕ) : Uint32 :=
  BitVec.ofNat 32 (Radix.value 256 BitVec.toNat ((block.drop (4 * t)).take 4))

def schedule (block : Bytes) (t : ℕ) : Uint32 :=
  if t < 16 then word block t
  else (schedule block (t - 3) ^^^ schedule block (t - 8) ^^^ schedule block (t - 14) ^^^
    schedule block (t - 16)).rotateLeft 1

abbrev Hash := Uint32 × Uint32 × Uint32 × Uint32 × Uint32

def step (block : Bytes) (t : ℕ) : Hash → Hash
  | (a, b, c, d, e) =>
    (a.rotateLeft 5 + function t b c d + e + constant t + schedule block t, a, b.rotateLeft 30, c, d)

def steps (block : Bytes) (s : Hash) : ℕ → Hash
  | 0 => s
  | t + 1 => step block t (steps block s t)

def add : Hash → Hash → Hash
  | (h0, h1, h2, h3, h4), (a, b, c, d, e) => (h0 + a, h1 + b, h2 + c, h3 + d, h4 + e)

def compress (s : Hash) (block : Bytes) : Hash := add s (steps block s 80)

def start : Hash := (0x67452301, 0xefcdab89, 0x98badcfe, 0x10325476, 0xc3d2e1f0)

/-- The last `n` bytes of a number. -/
def bigEndian (n v : ℕ) : Bytes := Radix.write 256 (BitVec.ofNat 8) n v

/-- A one bit, zeros up to eight bytes before the end of a block, the length in bits. -/
def padding (length : ℕ) : Bytes :=
  0x80 :: List.replicate ((119 - length % 64) % 64) 0 ++ bigEndian 8 (8 * length)

def pad (message : Bytes) : Bytes := message ++ padding message.length

def output : Hash → Bytes
  | (a, b, c, d, e) =>
    bigEndian 4 a.toNat ++ bigEndian 4 b.toNat ++ bigEndian 4 c.toNat ++ bigEndian 4 d.toNat ++ bigEndian 4 e.toNat

/-- The digest of a message made of full blocks. -/
def digest (padded : Bytes) : Bytes :=
  output (Blocks.chain 64 compress start padded (padded.length / 64))

def sha1 (message : Bytes) : Bytes := digest (pad message)

end Standard

open Standard Blocks

/-! ### Words -/

theorem lrot_eq (x : Uint32) {bits : ℕ} (h : bits < 32) : lrot x bits = x.rotateLeft bits := by
  rw [lrot, BitVec.rotateLeft_def, Nat.mod_eq_of_lt h]

theorem byteMk_toNat : ∀ v < 256, (BitVec.ofNat 8 v).toNat = v := by
  intro v hv
  rw [BitVec.toNat_ofNat]
  omega

theorem value_bigEndian (n v : ℕ) : Radix.value 256 BitVec.toNat (bigEndian n v) = v % 256 ^ n :=
  Radix.value_write (by decide) byteMk_toNat n v

theorem bigEndian_length (n v : ℕ) : (bigEndian n v).length = n := Radix.write_length 256 _ n v

theorem bigEndian_inj {n v w : ℕ} (hv : v < 256 ^ n) (hw : w < 256 ^ n) (h : bigEndian n v = bigEndian n w) :
    v = w := by
  have hval := congrArg (Radix.value 256 BitVec.toNat) h
  rwa [value_bigEndian, value_bigEndian, Nat.mod_eq_of_lt hv, Nat.mod_eq_of_lt hw] at hval

theorem storeBigEndianUint32_eq (num : Uint32) : storeBigEndianUint32 num = bigEndian 4 num.toNat := by
  have hlt := num.isLt
  simp only [storeBigEndianUint32, bigEndian, Radix.write, List.cons.injEq, and_true]
  refine ⟨?_, ?_, ?_, ?_⟩ <;>
    · apply BitVec.eq_of_toNat_eq
      simp only [BitVec.toNat_setWidth, BitVec.toNat_ushiftRight, BitVec.toNat_ofNat,
        Nat.shiftRight_eq_div_pow]
      omega

/-- The two halves of the length in bits, of a 32-bit number of bytes. -/
theorem length_halves (size : Uint32) :
    storeBigEndianUint32 (size >>> 29) ++ storeBigEndianUint32 (size <<< 3) =
      bigEndian 8 (8 * size.toNat) := by
  have hlt := size.isLt
  rw [storeBigEndianUint32_eq, storeBigEndianUint32_eq]
  simp only [bigEndian, Radix.write, List.cons_append, List.nil_append, List.cons.injEq, and_true,
    BitVec.toNat_ushiftRight, BitVec.toNat_shiftLeft, Nat.shiftRight_eq_div_pow,
    Nat.shiftLeft_eq]
  refine ⟨?_, ?_, ?_, ?_, ?_, ?_, ?_, ?_⟩ <;>
    · congr 1
      omega

/-! ### The compression function -/

theorem choose_eq (x y z : Uint32) : (x &&& y) ||| ((x ^^^ 0xFFFFFFFF) &&& z) = ch x y z := by
  apply BitVec.eq_of_getLsbD_eq
  intro i hi
  have hone : (0xFFFFFFFF : Uint32).getLsbD i = true := by
    rw [show (0xFFFFFFFF : Uint32) = BitVec.allOnes 32 from rfl, BitVec.getLsbD_allOnes]
    exact decide_eq_true hi
  simp only [ch, BitVec.getLsbD_or, BitVec.getLsbD_and, BitVec.getLsbD_xor, BitVec.getLsbD_not, hone,
    hi, decide_true, Bool.true_and]
  cases x.getLsbD i <;> simp

theorem majority_eq (x y z : Uint32) : (x &&& y) ||| (x &&& z) ||| (y &&& z) = maj x y z := by
  apply BitVec.eq_of_getLsbD_eq
  intro i hi
  simp only [maj, BitVec.getLsbD_or, BitVec.getLsbD_and, BitVec.getLsbD_xor]
  cases x.getLsbD i <;> cases y.getLsbD i <;> simp

theorem roundFunction_eq (t : ℕ) (b c d : Uint32) :
    roundFunction t b c d = (constant t, function t b c d) := by
  unfold roundFunction constant function
  split
  · rw [choose_eq]
  · split
    · rfl
    · split
      · rw [majority_eq]
      · rfl

theorem round_eq (block : Bytes) (t : ℕ) (s : Hash) :
    round s (t, schedule block t) = step block t s := by
  obtain ⟨a, b, c, d, e⟩ := s
  simp only [round, step, roundFunction_eq, lrot_eq _ (show 5 < 32 by decide),
    lrot_eq _ (show 30 < 32 by decide)]
  rw [BitVec.add_assoc _ (schedule block t), BitVec.add_comm (schedule block t), ← BitVec.add_assoc]

theorem exists_four {l : Bytes} (h : 4 ≤ l.length) : ∃ a b c d rest, l = a :: b :: c :: d :: rest := by
  match l with
  | a :: b :: c :: d :: rest => exact ⟨a, b, c, d, rest, rfl⟩
  | [] | [_] | [_, _] | [_, _, _] => simp at h

theorem blockWord_eq (block : Bytes) {t : ℕ} (h : 4 * t + 4 ≤ block.length) :
    blockWord block t = word block t := by
  have hlen : 4 ≤ (block.drop (4 * t)).length := by
    rw [List.length_drop]
    omega
  obtain ⟨a, b, c, d, rest, hdrop⟩ := exists_four hlen
  have hget : ∀ i, block.getD (t * 4 + i) 0 = (a :: b :: c :: d :: rest).getD i 0 := by
    intro i
    rw [← hdrop, List.getD_eq_getElem?_getD, List.getD_eq_getElem?_getD, List.getElem?_drop,
      Nat.mul_comm]
  have h0 := hget 0
  rw [Nat.add_zero] at h0
  rw [blockWord, word, hdrop, h0, hget, hget, hget]
  have ha := a.isLt
  have hb := b.isLt
  have hc := c.isLt
  have hd := d.isLt
  apply BitVec.eq_of_toNat_eq
  simp only [List.getD_cons_zero, List.getD_cons_succ, List.take_succ_cons, List.take_zero,
    Radix.value, List.length_cons, List.length_nil, BitVec.toNat_add, BitVec.toNat_shiftLeft,
    BitVec.toNat_setWidth, BitVec.toNat_ofNat, Nat.shiftLeft_eq]
  omega

theorem words_eq {block : Bytes} (h : block.length = 64) :
    words block = (List.range 80).map (schedule block) := by
  have hfirst : (List.range 16).map (blockWord block) = (List.range 16).map (schedule block) := by
    apply List.map_congr_left
    intro t ht
    have ht' := List.mem_range.mp ht
    rw [schedule, if_pos ht', blockWord_eq block (by omega)]
  have hmore : ∀ n, (List.range' 16 n).foldl expand ((List.range 16).map (schedule block)) =
      (List.range (16 + n)).map (schedule block) := by
    intro n
    induction n with
    | zero => rfl
    | succ n ih =>
      have hget : ∀ i < 16 + n, ((List.range (16 + n)).map (schedule block)).getD i 0 =
          schedule block i := by
        intro i hi
        rw [List.getD_eq_getElem?_getD, List.getElem?_map, List.getElem?_range hi]
        rfl
      have hnext : schedule block (16 + n) =
          (schedule block (16 + n - 3) ^^^ schedule block (16 + n - 8) ^^^
            schedule block (16 + n - 14) ^^^ schedule block (16 + n - 16)).rotateLeft 1 := by
        rw [schedule, if_neg (by omega)]
      rw [List.range'_1_concat, List.foldl_concat, ih, expand, hget _ (by omega), hget _ (by omega),
        hget _ (by omega), hget _ (by omega), lrot_eq _ (by decide), ← hnext, ← Nat.add_assoc,
        List.range_succ, List.map_append, List.map_singleton]
  rw [words, hfirst, hmore]

/-- The rounds of a block, one by one. -/
theorem foldl_round (block : Bytes) (s : Hash) (n : ℕ) :
    (List.range n).foldl (fun s t => round s (t, schedule block t)) s = steps block s n := by
  induction n with
  | zero => rfl
  | succ n ih => rw [List.range_succ, List.foldl_concat, ih, round_eq, steps]

def hash (s : Sha1) : Hash := (s.H0, s.H1, s.H2, s.H3, s.H4)

theorem process_hash (s : Sha1) {block : Bytes} (h : block.length = 64) :
    (process s block).hash = compress s.hash block := by
  have hzip := List.zip_map' (f := id) (g := schedule block) (l := List.range 80)
  rw [List.map_id] at hzip
  have hfold : ((List.range 80).zip (words block)).foldl round (s.H0, s.H1, s.H2, s.H3, s.H4) =
      steps block s.hash 80 := by
    rw [words_eq h, hzip, List.foldl_map]
    exact foldl_round block _ 80
  unfold process compress
  rw [hfold]
  generalize steps block s.hash 80 = r
  rfl

@[simp] theorem process_bytes (s : Sha1) (block : Bytes) : (process s block).bytes = [] := by
  unfold process
  split
  rfl

@[simp] theorem process_size (s : Sha1) (block : Bytes) : (process s block).size = s.size := by
  unfold process
  split
  rfl

/-! ### Taking in the message -/

theorem copyBytes_absorb (fuel : ℕ) (s : Sha1) (data : Bytes) (h : data.length ≤ fuel) :
    ((copyBytes fuel s data).hash, (copyBytes fuel s data).bytes) =
      absorb 64 compress s.hash (s.bytes ++ data) := by
  induction fuel generalizing s data with
  | zero =>
    have hnil : data = [] := List.eq_nil_of_length_eq_zero (by omega)
    rw [hnil, List.append_nil, absorb_of_lt s.unprocessed_lt, copyBytes]
  | succ fuel ih =>
    rw [copyBytes]
    split
    next hnil => rw [hnil, List.append_nil, absorb_of_lt s.unprocessed_lt]
    next hdata =>
      have hlt := s.unprocessed_lt
      have hpos := List.length_pos_iff.mpr hdata
      have hdrop : (data.drop (64 - s.bytes.length)).length ≤ fuel := by
        rw [List.length_drop]
        omega
      have hsplit : s.bytes ++ data = s.bytes ++ data.take (64 - s.bytes.length) ++
          data.drop (64 - s.bytes.length) := by
        rw [List.append_assoc, List.take_append_drop]
      dsimp only
      split
      next hblock =>
        rw [ih _ _ hdrop, hsplit]
        rfl
      next hblock =>
        have hfull : (s.bytes ++ data.take (64 - s.bytes.length)).length = 64 := by
          rw [List.length_append, List.length_take] at hblock ⊢
          omega
        rw [ih _ _ hdrop, hsplit, absorb_block (by decide) hfull, process_hash s hfull,
          process_bytes, List.nil_append]

theorem copyBytes_size (fuel : ℕ) (s : Sha1) (data : Bytes) :
    (copyBytes fuel s data).size = s.size := by
  induction fuel generalizing s data with
  | zero => rfl
  | succ fuel ih =>
    rw [copyBytes]
    split
    · rfl
    · dsimp only
      split
      · rw [ih]
      · rw [ih, process_size]

/-- What the object holds after the bytes of `message`. -/
structure Reads (s : Sha1) (message : Bytes) : Prop where
  absorbed : (s.hash, s.bytes) = absorb 64 compress start message
  size_eq : s.size = BitVec.ofNat 32 message.length

theorem initial_reads : initial.Reads [] where
  absorbed := (absorb_of_lt (by decide)).symm
  size_eq := rfl

variable {s : Sha1} {message : Bytes}

theorem Reads.update (h : s.Reads message) (data : Bytes) :
    (s.update data).Reads (message ++ data) where
  absorbed := by
    rw [Sha1.update, copyBytes_absorb _ _ _ (Nat.le_refl _)]
    rw [absorb_append (m := message) (by decide), ← h.absorbed]
    rfl
  size_eq := by
    rw [Sha1.update, copyBytes_size, List.length_append, BitVec.ofNat_add, ← h.size_eq]

theorem Reads.bytes_length (h : s.Reads message) : s.bytes.length = message.length % 64 := by
  have hbytes := (Prod.mk.inj h.absorbed).2
  have hdiv := Nat.div_add_mod message.length 64
  rw [hbytes, List.length_drop]
  omega

/-- After full blocks the object holds their chain. -/
theorem Reads.output (h : s.Reads message) (hfull : message.length % 64 = 0) :
    output s.hash = digest message := by
  have hdvd : message.length = 64 * (message.length / 64) := by omega
  have habs := h.absorbed
  rw [absorb_full hdvd (by decide)] at habs
  rw [digest, (Prod.mk.inj habs).1]

/-! ### The footer -/

/-- The zeros of a footer that does not fit in the block. -/
def fillZeros (length : ℕ) : ℕ := if length % 64 > 56 then 64 - length % 64 else 0

theorem Reads.fill (h : s.Reads message) :
    (if s.bytes.length > 56 then s.update (List.replicate (64 - s.bytes.length) 0) else s).Reads
      (message ++ List.replicate (fillZeros message.length) 0) := by
  rw [h.bytes_length]
  unfold fillZeros
  split
  · exact h.update _
  · rw [List.replicate_zero, List.append_nil]
    exact h

theorem padding_mod (length : ℕ) : padding (length % 2 ^ 32) =
    [0x80] ++ List.replicate (fillZeros (length + 1)) 0 ++
      (List.replicate (56 - (length + 1 + fillZeros (length + 1)) % 64) 0 ++
        bigEndian 8 (8 * (length % 2 ^ 32))) := by
  have hzeros : (119 - length % 2 ^ 32 % 64) % 64 =
      fillZeros (length + 1) + (56 - (length + 1 + fillZeros (length + 1)) % 64) := by
    unfold fillZeros
    split <;> omega
  rw [padding, hzeros, ← List.replicate_append_replicate]
  simp only [List.cons_append, List.nil_append, List.append_assoc]

theorem padded_length_mod (message : Bytes) (length : ℕ) (h : length % 64 = message.length % 64) :
    (message ++ padding length).length % 64 = 0 := by
  simp only [padding, List.length_append, List.length_cons, List.length_replicate, bigEndian_length]
  omega

theorem Reads.getDigest (h : s.Reads message) :
    s.getDigest = digest (message ++ padding (message.length % 2 ^ 32)) := by
  have hone := h.update [0x80]
  have hfill := hone.fill
  have hlen : (message ++ [0x80]).length = message.length + 1 := by
    rw [List.length_append, List.length_singleton]
  rw [hlen] at hfill
  have hlast := hfill.update (List.replicate (56 - (message.length + 1 +
    fillZeros (message.length + 1)) % 64) 0 ++ bigEndian 8 (8 * (message.length % 2 ^ 32)))
  have hpad := padding_mod message.length
  rw [List.append_assoc, List.append_assoc, ← List.append_assoc [0x80], ← hpad] at hlast
  have hend := hlast.output (padded_length_mod _ _ (by omega))
  rw [← hend]
  have hcount := hfill.bytes_length
  rw [List.length_append, hlen, List.length_replicate] at hcount
  unfold Sha1.getDigest
  dsimp only
  rw [List.append_assoc (List.replicate _ _), length_halves, h.size_eq, BitVec.toNat_ofNat, hcount]
  simp only [storeBigEndianUint32_eq]
  rfl

/-! ### Calls of `addBytes` -/

/-- One call of `addBytes` for each piece, its length passed as an `int`. -/
def addPieces (s : Sha1) (pieces : List Bytes) : Option Sha1 :=
  pieces.foldlM (fun s data => s.addBytes data (BitVec.ofNat 32 data.length).toInt) s

theorem toInt_length {n : ℕ} (h : n < 2 ^ 31) : (BitVec.ofNat 32 n).toInt = n := by
  rw [BitVec.toInt_eq_toNat_cond, BitVec.toNat_ofNat]
  split <;> omega

theorem addBytes_length (s : Sha1) {data : Bytes} (h : 0 < data.length ∧ data.length < 2 ^ 31) :
    s.addBytes data (BitVec.ofNat 32 data.length).toInt = some (s.update data) := by
  rw [addBytes, toInt_length h.2, if_pos (by omega), Int.toNat_natCast, List.take_length]

theorem Reads.addPieces (h : s.Reads message) (pieces : List Bytes)
    (hpieces : ∀ d ∈ pieces, 0 < d.length ∧ d.length < 2 ^ 31) :
    ∃ s', s.addPieces pieces = some s' ∧ s'.Reads (message ++ pieces.flatten) := by
  induction pieces generalizing s message with
  | nil =>
    refine ⟨s, rfl, ?_⟩
    rw [List.flatten_nil, List.append_nil]
    exact h
  | cons d pieces ih =>
    obtain ⟨s', hs', hreads⟩ := ih (h.update d) fun e he => hpieces e (List.mem_cons_of_mem d he)
    refine ⟨s', ?_, ?_⟩
    · rw [Sha1.addPieces, List.foldlM_cons, addBytes_length s (hpieces d (List.mem_cons_self ..))]
      exact hs'
    · rw [List.flatten_cons, ← List.append_assoc]
      exact hreads

/-- The digest does not depend on how the message is cut, and below 2^32 bytes it is the
digest of the standard; from there on the length in the last block is taken modulo 2^32. -/
theorem getDigest_pieces (pieces : List Bytes)
    (hpieces : ∀ d ∈ pieces, 0 < d.length ∧ d.length < 2 ^ 31) :
    (initial.addPieces pieces).map getDigest =
        some (digest (pieces.flatten ++ padding (pieces.flatten.length % 2 ^ 32))) ∧
      (pieces.flatten.length < 2 ^ 32 →
        (initial.addPieces pieces).map getDigest = some (sha1 pieces.flatten)) := by
  obtain ⟨s, hs, hreads⟩ := initial_reads.addPieces pieces hpieces
  have hdigest := hreads.getDigest
  rw [List.nil_append] at hdigest
  rw [hs, Option.map_some, hdigest]
  refine ⟨rfl, ?_⟩
  intro hlt
  rw [Nat.mod_eq_of_lt hlt, sha1, pad]

theorem getDigest_pieces_abc :
    (initial.addPieces [[0x61], [0x62, 0x63]]).map getDigest = some (sha1 [0x61, 0x62, 0x63]) :=
  (getDigest_pieces [[0x61], [0x62, 0x63]] (by decide)).2 (by decide)

/-! ### Collisions -/

theorem output_injective : Function.Injective Standard.output := by
  intro h g heq
  obtain ⟨a, b, c, d, e⟩ := h
  obtain ⟨a', b', c', d', e'⟩ := g
  have hword : ∀ x y : Uint32, bigEndian 4 x.toNat = bigEndian 4 y.toNat → x = y := by
    intro x y hxy
    exact BitVec.eq_of_toNat_eq (bigEndian_inj x.isLt y.isLt hxy)
  have hlen : ∀ v w, (bigEndian 4 v).length = (bigEndian 4 w).length := by
    intro v w
    rw [bigEndian_length, bigEndian_length]
  simp only [Standard.output, List.append_assoc] at heq
  obtain ⟨ha, heq⟩ := List.append_inj heq (hlen _ _)
  obtain ⟨hb, heq⟩ := List.append_inj heq (hlen _ _)
  obtain ⟨hc, heq⟩ := List.append_inj heq (hlen _ _)
  obtain ⟨hd, he⟩ := List.append_inj heq (hlen _ _)
  rw [hword _ _ ha, hword _ _ hb, hword _ _ hc, hword _ _ hd, hword _ _ he]

/-- The number of blocks of the padded message. -/
def blocks (message : Bytes) : ℕ := (pad message).length / 64

/-- The chains of two messages meet at a collision of the compression function. -/
def Merges (a b : Bytes) : Prop :=
  Merge 64 compress start (pad a) (pad b) (blocks a) (blocks b)

theorem pad_length (message : Bytes) : (pad message).length = 64 * blocks message := by
  have hmod := padded_length_mod message message.length rfl
  have hdiv := Nat.div_add_mod (pad message).length 64
  rw [blocks]
  rw [pad] at hdiv ⊢
  omega

theorem blocks_pos (message : Bytes) : 0 < blocks message := by
  have hlen := pad_length message
  simp only [pad, padding, List.length_append, List.length_cons, List.length_replicate,
    bigEndian_length] at hlen
  omega

/-- The last eight bytes are the length. -/
theorem pad_drop (message : Bytes) :
    (pad message).drop (64 * blocks message - 8) = bigEndian 8 (8 * message.length) := by
  have hlen := pad_length message
  rw [pad, padding, ← List.append_assoc] at hlen ⊢
  apply List.drop_left'
  rw [List.length_append, bigEndian_length] at hlen
  omega

variable {a b : Bytes}

theorem length_eq_of_footer (ha : a.length < 2 ^ 61) (hb : b.length < 2 ^ 61)
    (h : bigEndian 8 (8 * a.length) = bigEndian 8 (8 * b.length)) : a.length = b.length := by
  have hinj := bigEndian_inj (by omega) (by omega) h
  omega

theorem pad_inj (ha : a.length < 2 ^ 61) (hb : b.length < 2 ^ 61) (h : pad a = pad b) : a = b := by
  have hblocks : blocks a = blocks b := by rw [blocks, blocks, h]
  have hfooter := pad_drop a
  rw [h, hblocks, pad_drop] at hfooter
  exact List.append_inj_left h (length_eq_of_footer ha hb hfooter.symm)

theorem last_block_ne (ha : a.length < 2 ^ 61) (hb : b.length < 2 ^ 61)
    (h : blocks a ≠ blocks b) :
    block 64 (pad a) (blocks a - 1) ≠ block 64 (pad b) (blocks b - 1) := by
  have hfooter : ∀ m : Bytes, (block 64 (pad m) (blocks m - 1)).drop 56 =
      bigEndian 8 (8 * m.length) := by
    intro m
    have hlen := pad_length m
    have hpos := blocks_pos m
    have hindex : 64 * (blocks m - 1) + 56 = 64 * blocks m - 8 := by omega
    have hwhole : ((pad m).drop (64 * (blocks m - 1))).length ≤ 64 := by
      rw [List.length_drop]
      omega
    rw [block, List.take_of_length_le hwhole, List.drop_drop, hindex, pad_drop]
  intro heq
  have hlast := congrArg (List.drop 56) heq
  rw [hfooter, hfooter] at hlast
  have hlength := length_eq_of_footer ha hb hlast
  apply h
  rw [blocks, blocks, pad, pad, List.length_append, List.length_append, hlength]

theorem sha1_eq_iff (ha : a.length < 2 ^ 61) (hb : b.length < 2 ^ 61) :
    sha1 a = sha1 b ↔ a = b ∨ Merges a b := by
  have hchain : sha1 a = sha1 b ↔ chain 64 compress start (pad a) (blocks a) =
      chain 64 compress start (pad b) (blocks b) := output_injective.eq_iff
  rw [hchain]
  by_cases hab : a = b
  · simp [hab]
  · have hpad : pad a ≠ pad b := fun h => hab (pad_inj ha hb h)
    have hmerge : chain 64 compress start (pad a) (blocks a) =
        chain 64 compress start (pad b) (blocks b) ↔ Merges a b :=
      chain_eq_iff_merge (by decide) (pad_length a) (pad_length b) (blocks_pos a) (blocks_pos b)
        (last_block_ne ha hb) hpad
    rw [hmerge]
    simp [hab]

end Sha1

/-! ### IDs -/

namespace ID
open Sha1 Sha1.Standard

theorem ofString_bytes {str : Bytes} (h : 0 < str.length ∧ str.length < 2 ^ 31) :
    (ofString str).map ID.bytes = some (sha1 str) := by
  have hreads := initial_reads.update str
  have hdigest := hreads.getDigest
  rw [List.nil_append, Nat.mod_eq_of_lt (by omega)] at hdigest
  rw [ofString, addBytes_length initial h, Option.map_some, Option.map_some]
  exact congrArg some hdigest

/-- The bytes of the port, the last one first. -/
def portBytes (port : Uint32) : Bytes :=
  [port.setWidth 8, (port >>> 8).setWidth 8, (port >>> 16).setWidth 8, (port >>> 24).setWidth 8]

/-- `ID(const std::string &, unsigned int)`. -/
def ofHostPort (host : Bytes) (port : Uint32) : Option ID :=
  (Sha1.initial.addBytes host (BitVec.ofNat 32 host.length).toInt).bind fun sha1 =>
    (sha1.addBytes (portBytes port) 4).map fun sha1 => ⟨sha1.getDigest, sha1.getDigest_length⟩

theorem portBytes_inj {p q : Uint32} (h : portBytes p = portBytes q) : p = q := by
  have hp := p.isLt
  have hq := q.isLt
  simp only [portBytes, List.cons.injEq, and_true, ← BitVec.toNat_inj, BitVec.toNat_setWidth,
    BitVec.toNat_ushiftRight, Nat.shiftRight_eq_div_pow] at h
  apply BitVec.eq_of_toNat_eq
  omega

theorem ofHostPort_bytes {host : Bytes} (port : Uint32)
    (h : 0 < host.length ∧ host.length < 2 ^ 31) :
    (ofHostPort host port).map ID.bytes = some (sha1 (host ++ portBytes port)) := by
  have hreads := (initial_reads.update host).update (portBytes port)
  have hdigest := hreads.getDigest
  have hlen : ([] ++ host ++ portBytes port).length = host.length + 4 := by
    rw [List.nil_append, List.length_append]
    rfl
  rw [hlen, Nat.mod_eq_of_lt (by omega), ← hlen, List.nil_append] at hdigest
  have hport : ∀ s : Sha1, s.addBytes (portBytes port) 4 = some (s.update (portBytes port)) := by
    intro s
    rfl
  rw [ofHostPort, addBytes_length initial h, Option.bind_some, hport, Option.map_some,
    Option.map_some]
  exact congrArg some hdigest

theorem bytes_map_inj {x y : Option ID} : x.map ID.bytes = y.map ID.bytes ↔ x = y :=
  (Option.map_injective fun _ _ => ID.ext).eq_iff

/-- Two names have one ID exactly when they are equal or their chains merge. -/
theorem same_id_iff (a b : Bytes) (ha : 0 < a.length ∧ a.length < 2 ^ 31)
    (hb : 0 < b.length ∧ b.length < 2 ^ 31) : ofString a = ofString b ↔ a = b ∨ Merges a b := by
  rw [← bytes_map_inj, ofString_bytes ha, ofString_bytes hb, Option.some_inj]
  exact sha1_eq_iff (by omega) (by omega)

theorem same_id_iff_pair : ofString [0x61] = ofString [0x62] ↔
    ([0x61] : Bytes) = [0x62] ∨ Merges [0x61] [0x62] :=
  same_id_iff [0x61] [0x62] (by decide) (by decide)

theorem same_endpoint_iff (host host' : Bytes) (port port' : Uint32)
    (h : 0 < host.length ∧ host.length < 2 ^ 31) (h' : 0 < host'.length ∧ host'.length < 2 ^ 31) :
    ofHostPort host port = ofHostPort host' port' ↔
      host = host' ∧ port = port' ∨ Merges (host ++ portBytes port) (host' ++ portBytes port') := by
  have hlen : ∀ (l : Bytes) (p : Uint32), (l ++ portBytes p).length = l.length + 4 := by
    intro l p
    rw [List.length_append]
    rfl
  have hpair : host ++ portBytes port = host' ++ portBytes port' ↔ host = host' ∧ port = port' := by
    constructor
    · intro heq
      obtain ⟨hhost, hport⟩ := List.append_inj' heq rfl
      exact ⟨hhost, portBytes_inj hport⟩
    · intro heq
      rw [heq.1, heq.2]
  rw [← bytes_map_inj, ofHostPort_bytes port h, ofHostPort_bytes port' h', Option.some_inj, ← hpair]
  exact sha1_eq_iff (by rw [hlen]; omega) (by rw [hlen]; omega)

end ID

end ChordChat
