import SmartOS.FAT16.Files

/-!
# Reading from files

`read` walks the chain to the cluster of the position, and to the last cluster of
the request; then it copies from cluster to cluster. The first walk compares the
position with the end of a cluster by `>`, so it stops one cluster early for a
position that is the start of a cluster other than the first. What is copied is
then the bytes one cluster before those asked for, and unless the request also
ends with a cluster, the length of the last copy is a difference below zero.

`Copied` is the invariant of the copy loop, with the number of clusters `early`
that the walk stopped too soon; `read_eq_iff` says when `read` is right.
-/

namespace SmartOS

open Prog

variable {fs : FAT16} {disk : Disk} {c : ℕ → ℕ} {n i j early dest position size endPos : ℕ}
  {buffer m m' : Mem} {s : FAT16.CopyState} {file : File}

/-! ## The copy loop -/

/-- At cluster `i` of the copy loop, with `readPos` that is `early` clusters ahead: the bytes of the
    file up to there have been copied. -/
structure Copied (fs : FAT16) (disk : Disk) (c : ℕ → ℕ) (early dest position : ℕ) (m : Mem)
    (i : ℕ) (s : FAT16.CopyState) : Prop where
  cluster : s.cluster = c i
  index : s.readPos / fs.clusterSize = i + early
  le : position ≤ s.readPos
  writePos : s.writePos = s.readPos - position
  target : s.target = m.copy dest (fs.contents disk c) (position - early * fs.clusterSize)
    (s.readPos - position)

theorem nextPos_eq (hc : fs.Chain disk c n) (hi : s.readPos / fs.clusterSize ≤ n) :
    fs.nextPos s.readPos = (s.readPos / fs.clusterSize + 1) * fs.clusterSize := by
  rw [FAT16.nextPos, wrap_of_lt (hc.mul_lt (by omega))]

/-- A copy from the buffer is one from the file. -/
theorem memcpyFrom_readCluster {k : ℕ} (buffer : Mem)
    (h : Copied fs disk c early dest position m i s)
    (hearly : early * fs.clusterSize ≤ position)
    (hk : s.readPos % fs.clusterSize + k ≤ fs.clusterSize) :
    memcpyFrom s.target (dest + s.writePos) (fs.readCluster disk s.cluster buffer)
        (s.readPos % fs.clusterSize) k =
      m.copy dest (fs.contents disk c) (position - early * fs.clusterSize)
        (s.readPos - position + k) := by
  have hle := h.le
  have hsplit : position - early * fs.clusterSize + (s.readPos - position) =
      i * fs.clusterSize + s.readPos % fs.clusterSize := by
    have hdiv := Nat.div_add_mod s.readPos fs.clusterSize
    rw [h.index, Nat.mul_comm, Nat.add_mul] at hdiv
    omega
  rw [memcpyFrom_eq_copy, h.target, h.writePos, h.cluster, ← Mem.copy_append]
  refine Mem.copy_congr fun t ht => ?_
  rw [hsplit, Nat.add_assoc, contents_add _ _ _ buffer (by omega)]

/-- One round. -/
theorem copied_readStep (hc : fs.Chain disk c n) (hpos : 0 < fs.clusterSize) (hi : i + 1 < n)
    (hearly : early * fs.clusterSize ≤ position) (hle : early ≤ 1)
    (h : Copied fs disk c early dest position m i s) :
    Copied fs disk c early dest position m (i + 1) (fs.readStep disk dest s) ∧
      (fs.readStep disk dest s).readPos = (i + 1 + early) * fs.clusterSize := by
  have hposle := h.le
  have hnext : fs.nextPos s.readPos = (i + 1 + early) * fs.clusterSize := by
    rw [nextPos_eq hc (by rw [h.index]; omega), h.index, Nat.add_right_comm]
  have hdiv := Nat.div_add_mod s.readPos fs.clusterSize
  have hmod := Nat.mod_lt s.readPos hpos
  have hsucc : (i + 1 + early) * fs.clusterSize =
      (i + early) * fs.clusterSize + fs.clusterSize := by
    rw [Nat.add_right_comm, Nat.add_mul, Nat.one_mul]
  rw [h.index, Nat.mul_comm] at hdiv
  -- `writePos` is the number of bytes copied.
  have hwrite : wrap (s.writePos + (fs.clusterSize - s.readPos % fs.clusterSize)) =
      (i + 1 + early) * fs.clusterSize - position := by
    have := hc.mul_lt (k := i + 1 + early) (by omega)
    rw [h.writePos, wrap_of_lt (by omega)]
    omega
  refine ⟨⟨?_, ?_, ?_, ?_, ?_⟩, hnext⟩
  · show fs.readFAT disk s.cluster = _
    rw [h.cluster, hc.next i hi]
  · show fs.nextPos s.readPos / _ = _
    rw [hnext, Nat.mul_div_cancel _ hpos]
  · show position ≤ fs.nextPos s.readPos
    omega
  · exact hwrite.trans (by rw [← hnext]; rfl)
  · refine (memcpyFrom_readCluster _ h hearly (by omega)).trans ?_
    show _ = m.copy dest _ _ (fs.nextPos s.readPos - position)
    rw [hnext]
    congr 1
    omega

/-- All rounds, to the cluster `j`. -/
theorem returns_copy (hc : fs.Chain disk c n) (hpos : 0 < fs.clusterSize) (hij : i ≤ j)
    (hj : j < n) (hearly : early * fs.clusterSize ≤ position) (hle : early ≤ 1)
    (h : Copied fs disk c early dest position m i s) :
    ∃ s', Returns (fun k => loop (whileDo (·.cluster != c j) (fs.readStep disk dest)) k s) s' ∧
      Copied fs disk c early dest position m j s' ∧
      s'.readPos = if i = j then s.readPos else (j + early) * fs.clusterSize := by
  induction hd : j - i generalizing i s with
  | zero =>
    obtain rfl : i = j := by omega
    refine ⟨s, returns_loop_exit ?_, h, (if_pos rfl).symm⟩
    rw [whileDo, if_neg (by simp [h.cluster])]
  | succ d ih =>
    have hne : c i ≠ c j := fun heq => by
      have := hc.inj i (by omega) j hj heq
      omega
    have hbody : whileDo (·.cluster != c j) (fs.readStep disk dest) s =
        .inl (fs.readStep disk dest s) := by
      rw [whileDo, if_pos (by simp [h.cluster, hne])]
    obtain ⟨hstep, hreadPos⟩ := copied_readStep hc hpos (by omega) hearly hle h
    obtain ⟨s', hreturns, hcopied, heq⟩ := ih (by omega) hstep (by omega)
    refine ⟨s', (returns_loop_next hbody).2 hreturns, hcopied, ?_⟩
    rw [heq, hreadPos, if_neg (by omega : ¬i = j)]
    split_ifs with hij'
    · rw [hij']
    · rfl

/-! ## The whole -/

/-- How far the first walk stops too soon. -/
def earlyBy (fs : FAT16) (position : ℕ) : ℕ :=
  if position = 0 ∨ ¬fs.clusterSize ∣ position then 0 else 1

theorem earlyBy_le : earlyBy fs position ≤ 1 := by
  rw [earlyBy]
  split_ifs <;> decide

/-- The cluster at which the first walk stops. -/
theorem div_eq_add_earlyBy (fs : FAT16) (position : ℕ) :
    position / fs.clusterSize = (position - 1) / fs.clusterSize + earlyBy fs position := by
  rw [earlyBy]
  split_ifs with h
  · rcases h with rfl | h
    · rfl
    · have hne : position ≠ 0 := fun h0 => h (h0 ▸ dvd_zero _)
      obtain ⟨p, rfl⟩ := Nat.exists_eq_succ_of_ne_zero hne
      rw [Nat.succ_div, if_neg h]
      rfl
  · obtain ⟨hne, hdvd⟩ := not_or.1 h
    obtain ⟨p, rfl⟩ := Nat.exists_eq_succ_of_ne_zero hne
    rw [Nat.succ_div, if_pos (not_not.1 hdvd)]
    rfl

theorem earlyBy_mul_le : earlyBy fs position * fs.clusterSize ≤ position := by
  rw [earlyBy]
  split_ifs with h
  · omega
  · obtain ⟨hne, hdvd⟩ := not_or.1 h
    rw [Nat.one_mul]
    exact Nat.le_of_dvd (by omega) (not_not.1 hdvd)

/-- The end of the last cluster of a request that ends with one. -/
theorem eq_succ_mul_of_dvd {a w : ℕ} (ha : 0 < a) (h : w ∣ a) : a = ((a - 1) / w + 1) * w := by
  obtain ⟨k, rfl⟩ := h
  have hw : 0 < w := Nat.pos_of_mul_pos_right ha
  obtain ⟨k, rfl⟩ := Nat.exists_eq_succ_of_ne_zero (Nat.pos_of_mul_pos_left ha).ne'
  have hlast : w * k.succ - 1 = w * k + (w - 1) := by
    rw [Nat.mul_succ]
    omega
  rw [hlast, Nat.mul_add_div hw, Nat.div_eq_of_lt (by omega), Nat.add_zero, Nat.mul_comm]

section

variable (hc : fs.Chain disk c n) (hpos : 0 < fs.clusterSize) (hcluster : file.cluster = c 0)
  (hsize : 1 ≤ size) (hend : file.position + size ≤ n * fs.clusterSize)
include hc hpos hcluster hsize hend

variable (dest buffer m) in
/-- What `read` comes to after its three loops. -/
theorem returns_read : ∃ s,
    Returns (fun k => fs.read disk file dest size buffer m k)
      (fs.readLast disk dest (file.position + size) s) ∧
    Copied fs disk c (earlyBy fs file.position) dest file.position m
      ((file.position + size - 1) / fs.clusterSize) s ∧
    s.readPos = if (file.position - 1) / fs.clusterSize =
        (file.position + size - 1) / fs.clusterSize then file.position
      else ((file.position + size - 1) / fs.clusterSize + earlyBy fs file.position) *
        fs.clusterSize := by
  have hmul := Nat.mul_comm n fs.clusterSize
  have hn : 0 < n := Nat.pos_of_ne_zero fun h0 => by simp [h0] at hend; omega
  have hlast : (file.position + size - 1) / fs.clusterSize < n :=
    Nat.div_lt_of_lt_mul (by omega)
  have hle : (file.position - 1) / fs.clusterSize ≤ (file.position + size - 1) / fs.clusterSize :=
    Nat.div_le_div_right (by omega)
  have hwrap : wrap (size + file.position) = file.position + size := by
    have := hc.mul_lt (k := n) (by omega)
    rw [Nat.add_comm, wrap_of_lt (by omega)]
  have hstart := hc.returns_follow hpos hn
    (by omega : file.position ≤ n * fs.clusterSize) rfl
  have hstop := hc.returns_follow hpos
    (by omega : (file.position - 1) / fs.clusterSize < n) hend rfl
  -- The second walk goes on from where the first one stops.
  rw [Nat.max_eq_right (Nat.zero_le _)] at hstart
  rw [Nat.max_eq_right hle] at hstop
  have hinit : Copied fs disk c (earlyBy fs file.position) dest file.position m
      ((file.position - 1) / fs.clusterSize)
      ⟨c ((file.position - 1) / fs.clusterSize), file.position, 0, buffer, m⟩ :=
    ⟨rfl, div_eq_add_earlyBy fs file.position, le_rfl, (Nat.sub_self _).symm, by simp⟩
  obtain ⟨s, hcopy, hcopied, hreadPos⟩ :=
    returns_copy hc hpos hle hlast earlyBy_mul_le earlyBy_le hinit
  refine ⟨s, ?_, hcopied, hreadPos⟩
  simp only [FAT16.read, hwrap]
  rw [hcluster]
  exact hstart.bind (hstop.bind (hcopy.bind (.pure _)))

/-- A request that does not start with a cluster is read. -/
theorem returns_read_of_not_dvd (h : file.position = 0 ∨ ¬fs.clusterSize ∣ file.position) :
    Returns (fun k => fs.read disk file dest size buffer m k)
      (some (m.copy dest (fs.contents disk c) file.position size)) := by
  obtain ⟨s, hreturns, hcopied, hreadPos⟩ :=
    returns_read dest buffer m hc hpos hcluster hsize hend
  have hearly : earlyBy fs file.position = 0 := if_pos h
  have hlt := Nat.lt_mul_div_succ (file.position + size - 1) hpos
  have hge := Nat.div_mul_le_self (file.position + size - 1) fs.clusterSize
  have hdiv := Nat.div_add_mod s.readPos fs.clusterSize
  rw [hcopied.index, hearly, Nat.add_zero] at hdiv
  rw [hearly, Nat.add_zero] at hreadPos
  have hle := hcopied.le
  have hle' : s.readPos ≤ file.position + size := by
    rw [hreadPos]
    split_ifs <;> omega
  have hlength : wrapSub (file.position + size) s.readPos = file.position + size - s.readPos := by
    have := hc.mul_lt (k := n) (by omega)
    exact wrapSub_of_le hle' (by omega)
  rw [Nat.mul_succ] at hlt
  -- The last copy does not go beyond a cluster.
  have hfits : s.readPos % fs.clusterSize + (file.position + size - s.readPos) ≤
      fs.clusterSize := by
    omega
  have hlast : fs.readLast disk dest (file.position + size) s =
      some (m.copy dest (fs.contents disk c) file.position size) := by
    rw [FAT16.readLast, hlength, if_pos hfits,
      memcpyFrom_readCluster s.buffer hcopied earlyBy_mul_le hfits, hearly, Nat.zero_mul,
      Nat.sub_zero]
    congr 2
    omega
  rwa [hlast] at hreturns

variable (dest buffer m) in
/-- A request that starts with a cluster other than the first: what is read are the bytes one
    cluster before, unless the last copy goes wrong. -/
theorem returns_read_of_dvd (h0 : file.position ≠ 0) (hdvd : fs.clusterSize ∣ file.position) :
    Returns (fun k => fs.read disk file dest size buffer m k)
      (if fs.clusterSize ∣ file.position + size then
        some (m.copy dest (fs.contents disk c) (file.position - fs.clusterSize) size)
      else none) := by
  obtain ⟨s, hreturns, hcopied, hreadPos⟩ :=
    returns_read dest buffer m hc hpos hcluster hsize hend
  have hearly : earlyBy fs file.position = 1 := if_neg (by simp [h0, hdvd])
  have hindex := div_eq_add_earlyBy fs file.position
  have hle : file.position / fs.clusterSize ≤ (file.position + size - 1) / fs.clusterSize :=
    Nat.div_le_div_right (by omega)
  rw [hearly] at hindex hreadPos
  rw [if_neg (by omega)] at hreadPos
  obtain ⟨e, he⟩ : ∃ e, e = (file.position + size - 1) / fs.clusterSize := ⟨_, rfl⟩
  have hlt := Nat.lt_mul_div_succ (file.position + size - 1) hpos
  have hge := Nat.div_mul_le_self (file.position + size - 1) fs.clusterSize
  rw [← he] at hlt hge hreadPos hcopied
  have hcomm : fs.clusterSize * (e + 1) = (e + 1) * fs.clusterSize := Nat.mul_comm _ _
  have hsucc : (e + 1) * fs.clusterSize = e * fs.clusterSize + fs.clusterSize := Nat.succ_mul _ _
  have hmod : s.readPos % fs.clusterSize = 0 := by rw [hreadPos, Nat.mul_mod_left]
  have hlast : fs.readLast disk dest (file.position + size) s =
      if fs.clusterSize ∣ file.position + size then
        some (m.copy dest (fs.contents disk c) (file.position - fs.clusterSize) size)
      else none := by
    split_ifs with hdvd'
    · -- Nothing is left to copy.
      have hexact : s.readPos = file.position + size := by
        rw [hreadPos, he, ← eq_succ_mul_of_dvd (by omega) hdvd']
      have hlength : wrapSub (file.position + size) s.readPos = 0 := by
        have := hc.mul_lt (k := n) (by omega)
        rw [hexact, wrapSub_of_le le_rfl (by omega), Nat.sub_self]
      have hcopy := memcpyFrom_readCluster (k := 0) s.buffer hcopied earlyBy_mul_le (by omega)
      rw [FAT16.readLast, hlength, if_pos (by omega), hcopy, hexact, hearly, Nat.one_mul]
      congr 2
      omega
    · have hne : file.position + size ≠ (e + 1) * fs.clusterSize := fun heq =>
        hdvd' ⟨e + 1, by omega⟩
      -- `readPos` is beyond the end, and the length wraps around.
      have hlength : fs.clusterSize < wrapSub (file.position + size) s.readPos := by
        have := clusterSize_le fs
        have hen : e < n := by
          have := Nat.mul_comm n fs.clusterSize
          exact he ▸ Nat.div_lt_of_lt_mul (by omega)
        have := hc.mul_lt (k := e + 1) (by omega)
        rw [wrapSub_eq_mod, hreadPos]
        omega
      rw [FAT16.readLast, if_neg (by omega)]
  rwa [hlast] at hreturns

end

/-- `read` leaves in `dest` the bytes asked for, and nothing else, exactly when the request does not
    start with a cluster other than the first, or it ends with a cluster and the bytes one cluster
    before are the same. -/
theorem read_eq_iff (hc : fs.Chain disk c n) (hspc : 1 ≤ fs.sectorsPerCluster)
    (hcluster : file.cluster = c 0) (hlong : file.size ≤ n * fs.clusterSize) (hsize : 1 ≤ size)
    (hend : file.position + size ≤ file.size) :
    Returns (fun k => fs.read disk file dest size buffer m k)
        (some (m.copy dest (fs.contents disk c) file.position size)) ↔
      file.position = 0 ∨ ¬fs.clusterSize ∣ file.position ∨
        (fs.clusterSize ∣ file.position + size ∧ ∀ i < size,
          fs.contents disk c (file.position - fs.clusterSize + i) =
            fs.contents disk c (file.position + i)) := by
  have hpos : 0 < fs.clusterSize := Nat.mul_pos hspc (by decide)
  rw [← or_assoc]
  by_cases h : file.position = 0 ∨ ¬fs.clusterSize ∣ file.position
  · exact iff_of_true (returns_read_of_not_dvd hc hpos hcluster hsize (by omega) h) (.inl h)
  · rw [or_iff_right h]
    obtain ⟨h0, hdvd⟩ := not_or.1 h
    have hreturns := returns_read_of_dvd dest buffer m hc hpos hcluster hsize (by omega) h0
      (not_not.1 hdvd)
    by_cases hdvd' : fs.clusterSize ∣ file.position + size
    · rw [if_pos hdvd'] at hreturns
      rw [and_iff_right hdvd', ← Mem.copy_eq_copy_iff (m := m) (a := dest)]
      constructor
      · exact fun hr => Option.some.inj (hreturns.unique hr)
      · exact fun heq => heq ▸ hreturns
    · rw [if_neg hdvd'] at hreturns
      exact iff_of_false (fun hr => nomatch hreturns.unique hr) fun h => hdvd' h.1

/-- A volume with clusters of one sector, on which cluster 2 is followed by cluster 3. -/
def twoClusters : Disk := fun x =>
  match x with
  | 13 => 1
  | 14 => 1
  | 516 => 3
  | _ => 0

theorem clusterSize_twoClusters : (FAT16.new twoClusters 0).clusterSize = 512 := by decide

theorem chain_twoClusters : (FAT16.new twoClusters 0).Chain twoClusters (· + 2) 2 where
  next i hi := by
    obtain rfl : i = 0 := by omega
    decide +kernel
  inj i _ j _ h := by omega
  lt i hi := by omega

/-- 600 bytes from the start of a file. -/
theorem read_eq_twoClusters : Returns
    (fun k => (FAT16.new twoClusters 0).read twoClusters ⟨0, 1024, 2⟩ 0 600 (fun _ => 0)
      (fun _ => 0) k)
    (some (Mem.copy (fun _ => 0) 0 ((FAT16.new twoClusters 0).contents twoClusters (· + 2)) 0
      600)) :=
  (read_eq_iff chain_twoClusters (by decide) (rfl : (File.mk 0 1024 2).cluster = 2)
    (by rw [clusterSize_twoClusters]) (by decide) (by decide)).2 (.inl rfl)

/-- What `read_eq_iff` says of some requests, of all. -/
def ReadsFile : Prop :=
  ∀ {fs : FAT16} {disk : Disk} {c : ℕ → ℕ} {n : ℕ} {file : File} {dest size : ℕ} {buffer m : Mem},
    fs.Chain disk c n → 1 ≤ fs.sectorsPerCluster → file.cluster = c 0 →
    file.size ≤ n * fs.clusterSize → 1 ≤ size → file.position + size ≤ file.size →
    Returns (fun k => fs.read disk file dest size buffer m k)
      (some (m.copy dest (fs.contents disk c) file.position size))

/-- The first byte of the second cluster. -/
theorem not_readsFile : ¬ReadsFile := by
  intro hall
  have hcluster : (File.mk 512 1024 2).cluster = 2 := rfl
  have hr := @hall _ _ _ _ _ 0 1 (fun _ => 0) (fun _ => 0) chain_twoClusters (by decide) hcluster
    (by rw [clusterSize_twoClusters]) le_rfl (by decide)
  have hnone := returns_read_of_dvd 0 (fun _ => 0) (fun _ => 0) chain_twoClusters
    (by rw [clusterSize_twoClusters]; decide) hcluster le_rfl
    (by rw [clusterSize_twoClusters]; decide) (by decide) (by rw [clusterSize_twoClusters])
  rw [clusterSize_twoClusters, if_neg (by decide)] at hnone
  exact nomatch hnone.unique hr

end SmartOS
