import MotorRv.Wal.Durable

/-!
# The segment file under writes and crashes

A write reaches the file block by block: `land` applies the blocks of each request that are kept,
over what stood there before. A crash keeps any blocks of any requests, except that a request
whose completion was delivered as good is intact (`Crash`).

No file extends past the largest `off_t`; a write that would is refused by the system.

The blocks that a crash keeps are chosen by an arbitrary function of the request and the block, so a
statement about `land` for every choice covers writes that arrive in any order, are torn anywhere,
or never arrive. Requests of a log do not overlap; where they did, the order of `land` would be that
of submission.

The lemmas follow two questions: which bytes are still what they were (`getD_land_of_not_mem`,
`holdsAt_land`), and which requests stand as they were asked for (`intact_land_all`,
`landWrite_end`, when every block is kept).
-/

namespace MotorRv

open Lib

/-- The largest file offset. -/
def kMaxOff : ℕ := 2 ^ 63 - 1

def pwrite (b : Bytes) (off : ℕ) (xs : Bytes) : Bytes :=
  if off + xs.length ≤ kMaxOff then writeAt b off xs else b

/-- The kept blocks of one write. -/
def landWrite (block : ℕ) (keep : ℕ → Bool) (off : ℕ) (xs : Bytes) (b : Bytes) : Bytes :=
  (List.range (xs.length / block)).foldl
    (fun b k => if keep k then pwrite b (off + k * block) (slice xs (k * block) block) else b) b

/-- The kept blocks of the writes, the `i`-th one filtered by `keep i`. -/
def land (block : ℕ) : (ℕ → ℕ → Bool) → List WriteRequest → Bytes → Bytes
  | _, [], b => b
  | keep, r :: rs, b =>
    land block (fun i => keep (i + 1)) rs (landWrite block (keep 0) r.offset r.bytes b)

/-- The write stands in the file as it was requested. -/
def Intact (b : Bytes) (r : WriteRequest) : Prop := HoldsAt b r.offset r.bytes

instance (b : Bytes) (r : WriteRequest) : Decidable (Intact b r) :=
  inferInstanceAs (Decidable (HoldsAt b r.offset r.bytes))

/-- The position belongs to the range of the request. -/
def WriteRequest.Covers (r : WriteRequest) (i : ℕ) : Prop :=
  r.offset ≤ i ∧ i < r.offset + r.bytes.length

/-- What a crash may leave of a file: any blocks of the accepted writes, and every write whose
completion was delivered as good. -/
def Crash (block : ℕ) (before : Bytes) (be : IoBackend) (after : Bytes) : Prop :=
  ∃ keep, after = land block keep be.accepted before ∧
    ∀ r ∈ be.accepted, landed be.delivered r = true → Intact after r

/-! ### What a write leaves alone -/

section Frame

variable {block : ℕ}

theorem length_le_pwrite (b : Bytes) (off : ℕ) (xs : Bytes) :
    b.length ≤ (pwrite b off xs).length := by
  unfold pwrite
  split_ifs
  · rw [length_writeAt]
    omega
  · exact le_rfl

theorem length_pwrite_le {b : Bytes} (hb : b.length ≤ kMaxOff) (off : ℕ) (xs : Bytes) :
    (pwrite b off xs).length ≤ kMaxOff := by
  unfold pwrite
  split_ifs
  · rw [length_writeAt]
    omega
  · exact hb

theorem getD_pwrite_of_not_mem {b : Bytes} {off i : ℕ} {xs : Bytes}
    (h : ¬ (off ≤ i ∧ i < off + xs.length)) : (pwrite b off xs).getD i 0 = b.getD i 0 := by
  unfold pwrite
  split_ifs
  · rw [getD_writeAt, if_neg h]
  · rfl

/-- A property of files that the block writes of a request keep is kept by the request. -/
private theorem landWrite_induct {P : Bytes → Prop} {keep : ℕ → Bool} {off : ℕ} {xs : Bytes}
    (hstep : ∀ b k, k < xs.length / block → P b →
      P (pwrite b (off + k * block) (slice xs (k * block) block))) {b : Bytes} (hb : P b) :
    P (landWrite block keep off xs b) := by
  unfold landWrite
  have : ∀ (ks : List ℕ) (b : Bytes), (∀ k ∈ ks, k < xs.length / block) → P b →
      P (ks.foldl (fun b k => if keep k then pwrite b (off + k * block)
        (slice xs (k * block) block) else b) b) := by
    intro ks
    induction ks with
    | nil => exact fun b _ hb => hb
    | cons k ks ih =>
      intro b hks hb
      rw [List.foldl_cons]
      refine ih _ (fun k' hk' => hks k' (List.mem_cons_of_mem k hk')) ?_
      split_ifs
      · exact hstep b k (hks k List.mem_cons_self) hb
      · exact hb
  exact this _ b (fun k hk => List.mem_range.mp hk) hb

theorem length_le_landWrite (keep : ℕ → Bool) (off : ℕ) (xs b : Bytes) :
    b.length ≤ (landWrite block keep off xs b).length :=
  landWrite_induct (P := fun b' => b.length ≤ b'.length)
    (fun b' _ _ h => h.trans (length_le_pwrite b' _ _)) le_rfl

theorem length_landWrite_le {keep : ℕ → Bool} {off : ℕ} {xs b : Bytes} (hb : b.length ≤ kMaxOff) :
    (landWrite block keep off xs b).length ≤ kMaxOff :=
  landWrite_induct (P := fun b' => b'.length ≤ kMaxOff) (fun _ _ _ h => length_pwrite_le h _ _) hb

theorem getD_landWrite_of_not_mem {keep : ℕ → Bool} {off i : ℕ} {xs b : Bytes}
    (h : ¬ (off ≤ i ∧ i < off + xs.length)) :
    (landWrite block keep off xs b).getD i 0 = b.getD i 0 := by
  refine landWrite_induct (P := fun b' => b'.getD i 0 = b.getD i 0) (fun b' k hk hb' => ?_) rfl
  rw [getD_pwrite_of_not_mem, hb']
  -- a block lies inside its request
  have hblk : k * block + block ≤ xs.length := by
    have h1 : (k + 1) * block ≤ xs.length / block * block := Nat.mul_le_mul_right _ hk
    have h2 := Nat.div_mul_le_self xs.length block
    rw [Nat.add_mul] at h1
    omega
  rw [length_slice hblk]
  omega

/-- A write of one block that is kept. -/
theorem landWrite_block {keep : ℕ → Bool} (hkeep : keep 0 = true) {off : ℕ} {xs : Bytes}
    (hpos : 0 < block) (hlen : xs.length = block) (b : Bytes) :
    landWrite block keep off xs b = pwrite b off xs := by
  have hone : xs.length / block = 1 := by rw [hlen, Nat.div_self hpos]
  rw [landWrite, hone, List.range_one, List.foldl_cons, List.foldl_nil, if_pos hkeep, Nat.zero_mul,
    Nat.add_zero, slice, List.drop_zero, List.take_of_length_le hlen.le]

/-- A write of which nothing is kept. -/
theorem landWrite_none {keep : ℕ → Bool} (hkeep : ∀ k, keep k = false) (off : ℕ) (xs b : Bytes) :
    landWrite block keep off xs b = b := by
  unfold landWrite
  generalize List.range _ = ks
  induction ks with
  | nil => rfl
  | cons k ks ih => rw [List.foldl_cons, hkeep, if_neg (by simp), ih]

/-- A write of whole blocks all of which are kept stands where it was asked for. -/
theorem holdsAt_landWrite_all (hpos : 0 < block) {off : ℕ} {xs : Bytes} (hdvd : block ∣ xs.length)
    (hend : off + xs.length ≤ kMaxOff) (b : Bytes) :
    HoldsAt (landWrite block (fun _ => true) off xs b) off xs := by
  have hblocks : ∀ n, n * block ≤ xs.length →
      HoldsAt ((List.range n).foldl (fun b k => if (fun _ => true) k then
        pwrite b (off + k * block) (slice xs (k * block) block) else b) b) off
        (xs.take (n * block)) := by
    intro n
    induction n with
    | zero => intro _; simpa using HoldsAt.nil b off
    | succ n ih =>
      intro hn
      rw [Nat.succ_mul] at hn
      have hlen : (slice xs (n * block) block).length = block := length_slice hn
      have htake : xs.take ((n + 1) * block) =
        xs.take (n * block) ++ slice xs (n * block) block := by
        rw [Nat.succ_mul, List.take_add, slice]
      have hhead : (xs.take (n * block)).length = n * block := by
        rw [List.length_take, min_eq_left (by omega)]
      rw [List.range_succ, List.foldl_append, List.foldl_cons, List.foldl_nil, if_pos rfl, htake,
        holdsAt_append, hhead, pwrite, if_pos (by rw [hlen]; omega)]
      -- the blocks before this one are not touched
      refine ⟨(ih (by omega)).writeAt_of_disjoint (.inl ?_), holdsAt_writeAt _ _ _⟩
      rw [hhead]
  have hall := hblocks (xs.length / block) (Nat.div_mul_le_self _ _)
  rwa [Nat.div_mul_cancel hdvd, List.take_length] at hall

/-- Kept whole, a write of whole blocks at the end is added to the file. -/
theorem landWrite_end (hpos : 0 < block) {xs b : Bytes} (hdvd : block ∣ xs.length)
    (hend : b.length + xs.length ≤ kMaxOff) :
    landWrite block (fun _ => true) b.length xs b = b ++ xs := by
  have hblocks : ∀ n, n * block ≤ xs.length →
      (List.range n).foldl (fun b' k => if (fun _ => true) k then
        pwrite b' (b.length + k * block) (slice xs (k * block) block) else b') b =
        b ++ xs.take (n * block) := by
    intro n
    induction n with
    | zero => intro _; simp
    | succ n ih =>
      intro hn
      rw [Nat.succ_mul] at hn
      have hlen : (slice xs (n * block) block).length = block := length_slice hn
      have hhead : (xs.take (n * block)).length = n * block := by
        rw [List.length_take, min_eq_left (by omega)]
      rw [List.range_succ, List.foldl_append, List.foldl_cons, List.foldl_nil, if_pos rfl,
        ih (by omega), pwrite, if_pos (by rw [hlen]; omega),
        writeAt_end (by rw [List.length_append, hhead]), List.append_assoc, Nat.succ_mul,
        List.take_add, slice]
  have hall := hblocks (xs.length / block) (Nat.div_mul_le_self _ _)
  rwa [Nat.div_mul_cancel hdvd, List.take_length] at hall

theorem length_le_land (keep : ℕ → ℕ → Bool) (rs : List WriteRequest) (b : Bytes) :
    b.length ≤ (land block keep rs b).length := by
  induction rs generalizing keep b with
  | nil => exact le_rfl
  | cons r rs ih => exact (length_le_landWrite _ _ _ _).trans (ih _ _)

theorem length_land_le {keep : ℕ → ℕ → Bool} {rs : List WriteRequest} {b : Bytes}
    (hb : b.length ≤ kMaxOff) : (land block keep rs b).length ≤ kMaxOff := by
  induction rs generalizing keep b with
  | nil => exact hb
  | cons r rs ih => exact ih (length_landWrite_le hb)

/-- A position outside every request keeps its value. -/
theorem getD_land_of_not_mem {keep : ℕ → ℕ → Bool} {rs : List WriteRequest} {b : Bytes} {i : ℕ}
    (h : ∀ r ∈ rs, ¬ r.Covers i) : (land block keep rs b).getD i 0 = b.getD i 0 := by
  induction rs generalizing keep b with
  | nil => rfl
  | cons r rs ih =>
    rw [land, ih fun r' hr' => h r' (List.mem_cons_of_mem r hr')]
    exact getD_landWrite_of_not_mem (h r List.mem_cons_self)

/-- What stands outside every request stays. -/
theorem holdsAt_land {keep : ℕ → ℕ → Bool} {rs : List WriteRequest} {b : Bytes} {off : ℕ}
    {xs : Bytes} (hx : HoldsAt b off xs)
    (h : ∀ i, off ≤ i → i < off + xs.length → ∀ r ∈ rs, ¬ r.Covers i) :
    HoldsAt (land block keep rs b) off xs :=
  hx.of_getD (length_le_land keep rs b) fun i h1 h2 => getD_land_of_not_mem (h i h1 h2)

/-- Writes of whole blocks, one behind the other, all stand in the file when all blocks are kept. -/
theorem intact_land_all (hpos : 0 < block) {rs : List WriteRequest}
    (hdvd : ∀ q ∈ rs, block ∣ q.bytes.length) (hend : ∀ q ∈ rs, q.offset + q.bytes.length ≤ kMaxOff)
    (hbehind : rs.Pairwise fun q q' => q.offset + q.bytes.length ≤ q'.offset) (b : Bytes) :
    ∀ q ∈ rs, Intact (land block (fun _ _ => true) rs b) q := by
  induction rs generalizing b with
  | nil => exact nofun
  | cons r rs ih =>
    obtain ⟨hfirst, hrest⟩ := List.pairwise_cons.mp hbehind
    obtain ⟨hr, hdvd⟩ := List.forall_mem_cons.mp hdvd
    obtain ⟨hr', hend⟩ := List.forall_mem_cons.mp hend
    rw [land]
    refine List.forall_mem_cons.mpr ⟨?_, ih hdvd hend hrest _⟩
    refine holdsAt_land (holdsAt_landWrite_all hpos hr hr' b) fun i _ hi q hq hcovers => ?_
    have := hfirst q hq
    have := hcovers.1
    omega

end Frame

end MotorRv
