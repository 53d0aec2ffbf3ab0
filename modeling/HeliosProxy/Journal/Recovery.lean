import HeliosProxy.Journal.SegmentStore
import HeliosProxy.Lib.Runs

/-!
# What a restart gives back

A frame behind whole frames is read back.  One cut inside its payload is noticed and
cut off; one cut inside its header is taken for the end of the file and stays, so that
what is appended behind it is lost.
-/

namespace HeliosProxy.Journal

open Wire List

variable {Tx : Type} {C : Codec Tx} {cfg : StoreConfig}

/-! ## One record -/

def Fits (C : Codec Tx) (tx : Tx) : Prop :=
  0 < (C.encode tx).length ∧ (C.encode tx).length ≤ maxPayload

def header (C : Codec Tx) (tx : Tx) : Bytes :=
  magic ++ toBeBytes (UInt32.ofNat (C.encode tx).length) ++ toBeBytes (crc32 (C.encode tx))

theorem length_header (tx : Tx) : (header C tx).length = headerLen := rfl

theorem frame_eq (tx : Tx) : frame C tx = header C tx ++ C.encode tx := rfl

theorem frame_ne_nil (tx : Tx) : frame C tx ≠ [] := cons_ne_nil _ _

theorem readRecord_header {tx : Tx} (hfits : Fits C tx) (r : Bytes) :
    readRecord C (header C tx ++ r) =
      if (r.take (C.encode tx).length).length < (C.encode tx).length then .error .corrupt
      else if crc32 (r.take (C.encode tx).length) ≠ crc32 (C.encode tx) then .error .corrupt
      else
        match C.decode (r.take (C.encode tx).length) with
        | some t => .ok (t, r.drop (C.encode tx).length)
        | none => .error .corrupt := by
  have hlen : (UInt32.ofNat (C.encode tx).length).toNat = (C.encode tx).length := by
    have hmax : maxPayload = 268435456 := rfl
    have hle := hfits.2
    exact UInt32.toNat_ofNat_of_lt' (by simp only [UInt32.size]; omega)
  have htake : (header C tx ++ r).take headerLen = header C tx := take_left' rfl
  have hdrop : (header C tx ++ r).drop headerLen = r := drop_left' rfl
  have hmagic : (header C tx).take 4 = magic := rfl
  have hsize : ((header C tx).drop 4).take 4 = toBeBytes (UInt32.ofNat (C.encode tx).length) := rfl
  have hcrc : (header C tx).drop 8 = toBeBytes (crc32 (C.encode tx)) := rfl
  have hlegacy : magic ≠ legacyMagic := by decide
  have hne : ¬ ((C.encode tx).length = 0 ∨ maxPayload < (C.encode tx).length) := by
    have hpos := hfits.1
    have hle := hfits.2
    omega
  generalize hread : readRecord C (header C tx ++ r) = read
  simp only [readRecord, htake, hdrop, hmagic, hsize, hcrc, fromBeBytes_toBeBytes, hlen, hne,
    hlegacy, length_header, lt_irrefl, if_false, ne_eq, not_true_eq_false] at hread
  exact hread.symm

variable {tx : Tx}

theorem readRecord_frame (hfits : Fits C tx) (rest : Bytes) :
    readRecord C (frame C tx ++ rest) = .ok (tx, rest) := by
  rw [frame_eq, append_assoc, readRecord_header hfits, take_left, drop_left,
    if_neg (lt_irrefl _), if_neg (not_not_intro rfl), C.decode_encode]

theorem readRecord_short {r : Bytes} (hr : r.length < headerLen) :
    readRecord C r = .error .cleanEnd := by
  have hheader : (r.take headerLen).length < headerLen := by
    rw [length_take]
    omega
  simp only [readRecord, hheader, if_true]

theorem readRecord_cut {k : Nat} (hfits : Fits C tx) (hk : headerLen ≤ k)
    (hcut : k < (frame C tx).length) : readRecord C ((frame C tx).take k) = .error .corrupt := by
  rw [frame_eq, length_append, length_header] at hcut
  have htake : (frame C tx).take k = header C tx ++ (C.encode tx).take (k - headerLen) := by
    rw [frame_eq, take_append, length_header, take_of_length_le]
    exact hk
  have hshort : (((C.encode tx).take (k - headerLen)).take (C.encode tx).length).length <
      (C.encode tx).length := by
    simp only [length_take]
    omega
  rw [htake, readRecord_header hfits, if_pos hshort]

/-! ## The ring -/

variable {rec : Recovered Tx}

theorem evict_eq (htxs : rec.transactions.length ≤ cfg.maxTxs)
    (hbytes : rec.ringBytes ≤ cfg.maxBytes) : rec.evict C cfg = rec := by
  unfold Recovered.evict
  cases h : rec.transactions with
  | nil => simp only [Recovered.evict.go, ← h]
  | cons tx ring =>
    rw [h] at htxs
    have hkeep : ¬ (max cfg.maxTxs 1 < (tx :: ring).length ∨
        (cfg.maxBytes < rec.ringBytes ∧ 1 < (tx :: ring).length)) := by omega
    rw [Recovered.evict.go, if_neg hkeep, ← h]

variable {txs : List Tx}

theorem foldl_push (htxs : (rec.transactions ++ txs).length ≤ cfg.maxTxs)
    (hbytes : rec.ringBytes + (txs.map C.totalSize).sum ≤ cfg.maxBytes) :
    (txs.foldl (Recovered.push C cfg) rec).transactions = rec.transactions ++ txs ∧
      (txs.foldl (Recovered.push C cfg) rec).ringBytes =
        rec.ringBytes + (txs.map C.totalSize).sum := by
  induction txs generalizing rec with
  | nil => simp
  | cons tx txs ih =>
    simp only [length_append, length_cons, map_cons, sum_cons] at htxs hbytes
    have hlength : (rec.add C tx).transactions.length = rec.transactions.length + 1 :=
      length_append
    have hring : (rec.add C tx).ringBytes = rec.ringBytes + C.totalSize tx := rfl
    have hpush : rec.push C cfg tx = rec.add C tx := evict_eq (by omega) (by omega)
    obtain ⟨htransactions, hringBytes⟩ :=
      @ih (rec.add C tx) (by rw [length_append]; omega) (by omega)
    rw [foldl_cons, hpush, htransactions, hringBytes]
    exact ⟨append_assoc _ _ _, add_assoc _ _ _⟩

variable (cfg) in
theorem evict_suffix (rec : Recovered Tx) :
    (rec.evict C cfg).transactions <:+ rec.transactions ∧
      (rec.evict C cfg).commitSeqHigh = rec.commitSeqHigh := by
  have hgo : ∀ txs bytes, (Recovered.evict.go C cfg rec txs bytes).transactions <:+ txs ∧
      (Recovered.evict.go C cfg rec txs bytes).commitSeqHigh = rec.commitSeqHigh := by
    intro txs
    induction txs with
    | nil => exact fun bytes => ⟨suffix_rfl, rfl⟩
    | cons tx ring ih =>
      intro bytes
      rw [Recovered.evict.go]
      split
      · exact ⟨(ih _).1.trans (suffix_cons tx ring), (ih _).2⟩
      · exact ⟨suffix_rfl, rfl⟩
  exact hgo rec.transactions rec.ringBytes

variable (cfg) in
theorem foldl_push_suffix (txs : List Tx) (rec : Recovered Tx) :
    (txs.foldl (Recovered.push C cfg) rec).transactions <:+ rec.transactions ++ txs ∧
      rec.commitSeqHigh ≤ (txs.foldl (Recovered.push C cfg) rec).commitSeqHigh ∧
      ∀ tx ∈ txs, (C.commitSeq tx).getD 0 ≤
        (txs.foldl (Recovered.push C cfg) rec).commitSeqHigh := by
  induction txs generalizing rec with
  | nil => simp
  | cons tx txs ih =>
    obtain ⟨hsuffix, hhigh, hnumbers⟩ := ih (rec.push C cfg tx)
    obtain ⟨hpush, hpushHigh⟩ := evict_suffix (C := C) cfg (rec.add C tx)
    have hadd : (rec.add C tx).commitSeqHigh = max rec.commitSeqHigh ((C.commitSeq tx).getD 0) :=
      rfl
    rw [Recovered.push, hpushHigh, hadd] at hhigh
    rw [foldl_cons]
    refine ⟨hsuffix.trans ?_, le_of_max_le_left hhigh, ?_⟩
    · rw [show rec.transactions ++ tx :: txs = (rec.add C tx).transactions ++ txs by
        simp [Recovered.add]]
      exact (suffix_append_inj_of_length_eq rfl).mpr ⟨hpush, rfl⟩
    · intro t ht
      rcases mem_cons.mp ht with rfl | ht
      · exact le_of_max_le_right hhigh
      · exact hnumbers t ht

/-! ## Segments -/

def segment (C : Codec Tx) (s : Nat × List Tx) : Nat × Bytes := (s.1, s.2.flatMap (frame C))

def stored (segments : List (Nat × List Tx)) : List Tx := segments.flatMap Prod.snd

variable {tail : Bytes}

theorem readAll_segment {stop : ReadStop} (hfits : ∀ tx ∈ txs, Fits C tx)
    (hstop : readRecord C tail = .error stop) :
    Framed.readAll (readRecord C) ((txs.flatMap (frame C) ++ tail).length + 1)
        (txs.flatMap (frame C) ++ tail) = (txs, tail, some stop) := by
  refine Framed.readAll_frames (fun tx htx => readRecord_frame (hfits tx htx)) hstop ?_
  have hroom : txs.length ≤ (txs.flatMap (frame C)).length :=
    Framed.length_le_frames fun tx _ => frame_ne_nil tx
  rw [length_append]
  omega

variable {dir : Dir}

theorem recoverFrom_segments {segments : List (Nat × List Tx)}
    (hfits : ∀ tx ∈ stored segments, Fits C tx) :
    recoverFrom C cfg rec (segments.map (segment C) ++ dir) =
      (recoverFrom C cfg ((stored segments).foldl (Recovered.push C cfg) rec) dir).map
        fun (rec, dir) => (rec, segments.map (segment C) ++ dir) := by
  induction segments generalizing rec with
  | nil => simp [stored]
  | cons s segments ih =>
    obtain ⟨name, txs⟩ := s
    have htxs : ∀ tx ∈ txs, Fits C tx := fun tx htx => hfits tx (by simp [stored, htx])
    have hrest : ∀ tx ∈ stored segments, Fits C tx := fun tx htx =>
      hfits tx (mem_flatMap.2 (by
        obtain ⟨u, hu, hmem⟩ := mem_flatMap.1 htx
        exact ⟨u, mem_cons_of_mem _ hu, hmem⟩))
    have hread := readAll_segment htxs (readRecord_short (r := []) (by decide))
    rw [List.append_nil] at hread
    rw [map_cons, cons_append, segment, recoverFrom, hread]
    simp only [ih hrest, stored, flatMap_cons, foldl_append, Option.map_map]
    rfl

def Torn (C : Codec Tx) (tail : Bytes) : Prop :=
  readRecord C tail = .error (if headerLen ≤ tail.length then .corrupt else .cleanEnd)

theorem torn_nil : Torn C [] := readRecord_short (by decide)

theorem torn_take {k : Nat} (hfits : Fits C tx) (hshort : k < (frame C tx).length) :
    Torn C ((frame C tx).take k) := by
  have hlength : ((frame C tx).take k).length = k := by
    rw [length_take]
    omega
  rw [Torn, hlength]
  by_cases hheader : headerLen ≤ k
  · rw [if_pos hheader, readRecord_cut hfits hheader hshort]
  · rw [if_neg hheader, readRecord_short (by omega)]

variable {name : Nat} {cur : List Tx}

/-- The last segment: its whole frames are read, and a tail with a whole header is cut
off. -/
theorem recoverFrom_last (rec : Recovered Tx)
    (hfits : ∀ tx ∈ cur, Fits C tx) (htorn : Torn C tail) :
    ∃ rec', rec'.transactions = (cur.foldl (Recovered.push C cfg) rec).transactions ∧
      rec'.commitSeqHigh = (cur.foldl (Recovered.push C cfg) rec).commitSeqHigh ∧
      recoverFrom C cfg rec [(name, cur.flatMap (frame C) ++ tail)] =
        some (rec', [(name, cur.flatMap (frame C) ++
          if headerLen ≤ tail.length then [] else tail)]) := by
  have hread := readAll_segment hfits htorn
  by_cases hheader : headerLen ≤ tail.length
  · rw [if_pos hheader] at hread
    rw [recoverFrom, hread, if_pos hheader]
    simp only [recoverFrom, isEmpty_nil, if_true, Option.map_some, length_append,
      Nat.add_sub_cancel, take_left, List.append_nil]
    refine ⟨_, ?_, ?_, rfl⟩ <;> rfl
  · rw [if_neg hheader] at hread
    rw [recoverFrom, hread, if_neg hheader]
    exact ⟨_, rfl, rfl, rfl⟩

theorem has_iff : Dir.has dir name ↔ name ∈ dir.map Prod.fst := by
  rw [Dir.has, List.any_eq_true, List.mem_map]
  simp only [beq_iff_eq]

theorem map_fst_segments (closed : List (Nat × List Tx)) (name : Nat) (bytes : Bytes) :
    (closed.map (segment C) ++ [(name, bytes)]).map Prod.fst = closed.map Prod.fst ++ [name] := by
  rw [map_append, List.map_map]
  rfl

theorem listSegments_eq (h : (dir.map Prod.fst).Pairwise (· < ·)) : listSegments dir = dir := by
  refine mergeSort_of_pairwise ?_
  rw [pairwise_map] at h
  exact h.imp fun hlt => decide_eq_true (le_of_lt hlt)

variable {closed : List (Nat × List Tx)}

/-- A directory in order, closed segments and one whose end may be torn, is read from
its front to its end. -/
theorem openStore_ordered (hnames : (closed.map Prod.fst ++ [name]).Pairwise (· < ·))
    (hfits : ∀ tx ∈ stored closed ++ cur, Fits C tx) (htorn : Torn C tail) :
    ∃ rec, rec.transactions =
        ((stored closed ++ cur).foldl (Recovered.push C cfg) .none).transactions ∧
      rec.commitSeqHigh =
        ((stored closed ++ cur).foldl (Recovered.push C cfg) .none).commitSeqHigh ∧
      openStore C cfg (closed.map (segment C) ++ [(name, cur.flatMap (frame C) ++ tail)]) =
        some (rec, closed.map (segment C) ++ [(name, cur.flatMap (frame C) ++
          if headerLen ≤ tail.length then [] else tail)]) := by
  have hsorted : listSegments (closed.map (segment C) ++ [(name, cur.flatMap (frame C) ++ tail)]) =
      closed.map (segment C) ++ [(name, cur.flatMap (frame C) ++ tail)] :=
    listSegments_eq (by rw [map_fst_segments]; exact hnames)
  obtain ⟨hclosed, hcur⟩ := forall_mem_append.1 hfits
  obtain ⟨rec, hrec, hhigh, hlast⟩ :=
    recoverFrom_last ((stored closed).foldl (Recovered.push C cfg) .none) hcur htorn
  refine ⟨rec, by rw [hrec, foldl_append], by rw [hhigh, foldl_append], ?_⟩
  rw [openStore, hsorted, recoverFrom_segments hclosed, hlast]
  rfl

/-! ## The writer's directory -/

def seqOf (C : Codec Tx) (tx : Tx) : Nat := (C.commitSeq tx).getD 0

/-- The writer's directory holds the transactions of `closed` and `cur`, in segments
named in order, each no later than a transaction in it. -/
structure Holds (C : Codec Tx) (w : Writer) (closed : List (Nat × List Tx)) (cur : List Tx) :
    Prop where
  dir : w.dir = closed.map (segment C) ++ [(w.path, cur.flatMap (frame C))]
  len : w.len = (cur.flatMap (frame C)).length
  names : (closed.map Prod.fst ++ [w.path]).Pairwise (· < ·)
  closed_named : ∀ s ∈ closed, ∃ tx ∈ s.2, s.1 ≤ seqOf C tx
  cur_named : cur = [] ∨ ∃ tx ∈ cur, w.path ≤ seqOf C tx
  fits : ∀ tx ∈ stored closed ++ cur, Fits C tx

theorem flatMap_frame_eq_nil : txs.flatMap (frame C) = [] ↔ txs = [] := by
  rw [flatMap_eq_nil_iff]
  refine ⟨fun h => ?_, fun h => by simp [h]⟩
  refine eq_nil_iff_forall_not_mem.2 fun tx htx => frame_ne_nil tx (h tx htx)

theorem mem_stored {s : Nat × List Tx} (hs : s ∈ closed) (htx : tx ∈ s.2) : tx ∈ stored closed :=
  mem_flatMap.2 ⟨s, hs, htx⟩

section Names

variable {w : Writer} {closed : List (Nat × List Tx)} {cur : List Tx} {seq : Nat}

section

variable (h : Holds C w closed cur)
include h

theorem Holds.closed_lt (hseq : ∀ tx ∈ stored closed ++ cur, seqOf C tx < seq) :
    ∀ n ∈ closed.map Prod.fst, n < seq := by
  intro n hn
  obtain ⟨s, hs, rfl⟩ := List.mem_map.1 hn
  obtain ⟨tx, htx, hle⟩ := h.closed_named s hs
  exact lt_of_le_of_lt hle (hseq tx (mem_append_left _ (mem_stored hs htx)))

theorem Holds.path_lt (hseq : ∀ tx ∈ stored closed ++ cur, seqOf C tx < seq)
    (hcur : cur ≠ []) : w.path < seq := by
  obtain ⟨tx, htx, hle⟩ := h.cur_named.resolve_left hcur
  exact lt_of_le_of_lt hle (hseq tx (mem_append_right _ htx))

theorem Holds.has_eq_false (hclosed : ∀ n ∈ closed.map Prod.fst, n < seq)
    (hpath : w.path ≠ seq) : Dir.has w.dir seq = false := by
  rw [← Bool.not_eq_true, has_iff, h.dir, map_fst_segments, mem_append, mem_singleton]
  rintro (hmem | heq)
  · exact lt_irrefl _ (hclosed seq hmem)
  · exact hpath heq.symm

theorem Holds.closeCurrent (hcur : cur ≠ []) (hpath : w.path < seq) :
    Holds C { dir := w.dir ++ [(seq, [])], path := seq, len := 0 }
      (closed ++ [(w.path, cur)]) [] where
  dir := by simp [h.dir, segment]
  len := rfl
  names := by
    have hnames := h.names
    rw [map_append]
    refine pairwise_append.2 ⟨hnames, pairwise_singleton _ _, ?_⟩
    intro n hn m hm
    rw [mem_singleton] at hm
    subst hm
    rcases mem_append.1 hn with hn | hn
    · exact lt_trans ((pairwise_append.1 hnames).2.2 n hn w.path (by simp)) hpath
    · rw [mem_singleton.1 hn]
      exact hpath
  closed_named := by
    refine forall_mem_append.2 ⟨h.closed_named, ?_⟩
    intro s hs
    rw [mem_singleton.1 hs]
    exact h.cur_named.resolve_left hcur
  cur_named := .inl rfl
  fits := by simpa [stored] using h.fits

end

theorem map_last {path : Nat} {bytes : Bytes} {f : Nat × Bytes → Nat × Bytes}
    (hnames : (closed.map Prod.fst ++ [path]).Pairwise (· < ·)) (hf : ∀ x, x.1 ≠ path → f x = x) :
    (closed.map (segment C) ++ [(path, bytes)]).map f =
      closed.map (segment C) ++ [f (path, bytes)] := by
  have hclosed : (closed.map (segment C)).map f = closed.map (segment C) := by
    rw [List.map_map]
    refine map_congr_left fun s hs => hf (segment C s) ?_
    have hlt := (pairwise_append.1 hnames).2.2 s.1 (List.mem_map_of_mem hs) path (by simp)
    exact ne_of_lt hlt
  rw [map_append, hclosed, map_singleton]

theorem Holds.renameCurrent (h : Holds C w closed [])
    (hclosed : ∀ n ∈ closed.map Prod.fst, n < seq) :
    Holds C { w with dir := Dir.rename w.dir w.path seq, path := seq } closed [] where
  dir := by
    rw [h.dir, Dir.rename, map_last h.names fun x hx => if_neg hx, if_pos rfl]
  len := h.len
  names := by
    refine pairwise_append.2 ⟨(pairwise_append.1 h.names).1, pairwise_singleton _ _, ?_⟩
    intro n hn m hm
    rw [mem_singleton.1 hm]
    exact hclosed n hn
  closed_named := h.closed_named
  cur_named := .inl rfl
  fits := h.fits

theorem bytes_rename {dir : Dir} {old new : Nat} :
    Dir.bytes (Dir.rename dir old new) = Dir.bytes dir := by
  rw [Dir.bytes, Dir.rename, List.map_map]
  congr 2
  funext f
  simp only [Function.comp_apply]
  split <;> rfl

theorem enforceRetention_eq {w : Writer} (h : Dir.bytes w.dir ≤ cfg.retainBytes) :
    enforceRetention cfg w = w := by
  have hretired : retired cfg w.path (listSegments w.dir) (Dir.bytes w.dir) = [] := by
    cases listSegments w.dir with
    | nil => rfl
    | cons f rest =>
      cases rest with
      | nil => rfl
      | cons g segments => rw [retired, if_neg (by omega)]
  simp [enforceRetention, hretired]

section

variable (h : Holds C w closed cur)
include h

variable (cfg) in
/-- What `append` does before it writes, up to the retention: a segment is named for a
transaction that comes behind all others. -/
theorem Holds.opened (hseq : ∀ tx ∈ stored closed ++ cur, seqOf C tx < seq) :
    ∃ w' closed' cur', Holds C w' closed' cur' ∧ stored closed' ++ cur' = stored closed ++ cur ∧
      w'.path ≤ seq ∧ Dir.bytes w'.dir = Dir.bytes w.dir ∧
      (prepare cfg w seq = w' ∨ prepare cfg w seq = enforceRetention cfg w') := by
  have hclosed := h.closed_lt hseq
  unfold Journal.prepare
  split
  next hfull =>
    have hcur : cur ≠ [] := by
      rintro rfl
      have hlen := h.len
      simp only [flatMap_nil, length_nil] at hlen
      omega
    have hpath := h.path_lt hseq hcur
    have hbytes : Dir.bytes (w.dir ++ [(seq, [])]) = Dir.bytes w.dir := by simp [Dir.bytes]
    rw [rotate, Dir.create, h.has_eq_false hclosed (ne_of_lt hpath)]
    exact ⟨_, _, _, h.closeCurrent hcur hpath, by simp [stored], le_refl _, hbytes, .inr rfl⟩
  next hroom =>
    split
    next hempty =>
      have hcur : cur = [] :=
        flatMap_frame_eq_nil.1 (length_eq_zero_iff.1 (h.len.symm.trans hempty))
      subst hcur
      split
      next => exact ⟨_, _, _, h.renameCurrent hclosed, rfl, le_refl _, bytes_rename, .inl rfl⟩
      next hkeep =>
        refine ⟨_, _, _, h, rfl, ?_, rfl, .inl rfl⟩
        by_contra hlt
        -- the name is free: it is neither the current one nor a closed segment's
        exact hkeep ⟨by omega, by rw [h.has_eq_false hclosed (by omega)]; rfl⟩
    next hlen =>
      have hcur : cur ≠ [] := by
        rintro rfl
        exact hlen h.len
      exact ⟨_, _, _, h, rfl, le_of_lt (h.path_lt hseq hcur), rfl, .inl rfl⟩

theorem Holds.append_dir (tail : Bytes) : Dir.append w.dir w.path tail =
      closed.map (segment C) ++ [(w.path, cur.flatMap (frame C) ++ tail)] := by
  rw [h.dir, Dir.append, map_last h.names fun x hx => if_neg hx, if_pos rfl]

theorem Holds.bytes_append (tail : Bytes) :
    Dir.bytes (Dir.append w.dir w.path tail) = Dir.bytes w.dir + tail.length := by
  rw [h.append_dir, h.dir]
  simp [Dir.bytes, add_assoc]

theorem Holds.append {tx : Tx} (hfits : Fits C tx) (hpath : w.path ≤ seqOf C tx) : Holds C { w with
      dir := Dir.append w.dir w.path (frame C tx)
      len := w.len + (frame C tx).length } closed (cur ++ [tx]) where
  dir := by simp [h.append_dir]
  len := by simp [h.len]
  names := h.names
  closed_named := h.closed_named
  cur_named := .inr ⟨tx, by simp, hpath⟩
  fits := by
    rw [← append_assoc]
    refine forall_mem_append.2 ⟨h.fits, ?_⟩
    intro t ht
    rw [mem_singleton.1 ht]
    exact hfits

variable (cfg) in
/-- `Writer::open` goes on with the last segment or behind it. -/
theorem Holds.openWriter : ∃ closed' cur', Holds C (Journal.openWriter cfg w.dir) closed' cur' ∧
      stored closed' ++ cur' = stored closed ++ cur ∧
      Dir.bytes (Journal.openWriter cfg w.dir).dir = Dir.bytes w.dir := by
  have hnames : w.dir.map Prod.fst = closed.map Prod.fst ++ [w.path] := by
    rw [h.dir, map_fst_segments]
  have hsorted : listSegments w.dir = w.dir := listSegments_eq (hnames ▸ h.names)
  have hlast : (listSegments w.dir).getLast? = some (w.path, cur.flatMap (frame C)) := by
    rw [hsorted, h.dir, getLast?_concat]
  rw [Journal.openWriter, hlast]
  dsimp only
  split
  next hroom =>
    exact ⟨closed, cur, { h with len := rfl }, rfl, rfl⟩
  next hfull =>
    have hcur : cur ≠ [] := by
      rintro rfl
      exact hfull cfg.segmentBytes_pos
    rw [Dir.create, h.has_eq_false (fun n hn => Nat.lt_succ_of_lt
      ((pairwise_append.1 h.names).2.2 n hn w.path (by simp))) (by omega)]
    exact ⟨_, _, h.closeCurrent hcur (Nat.lt_succ_self _), by simp [stored], by simp [Dir.bytes]⟩

end

end Names

/-! ## Runs -/

def StoreEvent.size (C : Codec Tx) : StoreEvent Tx → Nat
  | .append tx _ => (frame C tx).length
  | .reopen => 0

/-- A run behind the transactions `done`: numbers grow beyond those of the completed
appends, payloads are of a length that is read back, and an append that does not
complete leaves nothing, or is followed by a restart that finds a whole header. -/
inductive Careful (C : Codec Tx) : List Tx → List (StoreEvent Tx) → Prop
  | nil {done : List Tx} : Careful C done []
  | completes {done : List Tx} {tx : Tx} {written : Nat} {es : List (StoreEvent Tx)}
      (hseq : ∀ t ∈ done, seqOf C t < seqOf C tx) (hfits : Fits C tx)
      (hwritten : (frame C tx).length ≤ written) (hes : Careful C (done ++ [tx]) es) :
      Careful C done (.append tx written :: es)
  | leavesNothing {done : List Tx} {tx : Tx} {es : List (StoreEvent Tx)}
      (hseq : ∀ t ∈ done, seqOf C t < seqOf C tx) (hes : Careful C done es) :
      Careful C done (.append tx 0 :: es)
  | crashes {done : List Tx} {tx : Tx} {written : Nat} {es : List (StoreEvent Tx)}
      (hseq : ∀ t ∈ done, seqOf C t < seqOf C tx) (hfits : Fits C tx)
        (hheader : headerLen ≤ written)
      (hshort : written < (frame C tx).length) (hes : Careful C done es) :
      Careful C done (.append tx written :: .reopen :: es)
  /-- A last append may leave any part of its bytes. -/
  | stops {done : List Tx} {tx : Tx} {written : Nat} (hseq : ∀ t ∈ done, seqOf C t < seqOf C tx)
      (hfits : Fits C tx) (hshort : written < (frame C tx).length) :
        Careful C done [.append tx written]
  | reopen {done : List Tx} {es : List (StoreEvent Tx)} (hes : Careful C done es) :
      Careful C done (.reopen :: es)

variable {written : Nat} {es : List (StoreEvent Tx)}

theorem completed_cons_some (h : (frame C tx).length ≤ written) :
    completed C (.append tx written :: es) = tx :: completed C es :=
  filterMap_cons_some (if_pos h)

theorem completed_cons_none (h : written < (frame C tx).length) :
    completed C (.append tx written :: es) = completed C es :=
  filterMap_cons_none (if_neg (not_le.2 h))

variable {w : Writer}

theorem append_short (h : written < (frame C tx).length) :
    append C cfg w tx written =
      { prepare cfg w (seqOf C tx) with
        dir := Dir.append (prepare cfg w (seqOf C tx)).dir (prepare cfg w (seqOf C tx)).path
          ((frame C tx).take written) } := by
  rw [append, if_neg (not_le.2 h)]
  rfl

theorem append_whole (h : (frame C tx).length ≤ written) :
    append C cfg w tx written =
      { prepare cfg w (seqOf C tx) with
        dir := Dir.append (prepare cfg w (seqOf C tx)).dir (prepare cfg w (seqOf C tx)).path
          (frame C tx)
        len := (prepare cfg w (seqOf C tx)).len + (frame C tx).length } := by
  rw [append, if_pos h, take_of_length_le h]
  rfl

theorem append_nil (dir : Dir) (path : Nat) : Dir.append dir path [] = dir := by
  refine (map_congr_left fun f _ => ?_).trans (List.map_id dir)
  rw [List.append_nil, ite_self, id]

/-- The writer's directory holds the transactions `done`. -/
def Keeps (C : Codec Tx) (w : Writer) (done : List Tx) : Prop :=
  ∃ closed cur, Holds C w closed cur ∧ stored closed ++ cur = done

/-- There is room for the transactions `done` and those of the events. -/
structure Room (C : Codec Tx) (cfg : StoreConfig) (w : Writer) (done : List Tx)
    (es : List (StoreEvent Tx)) :
    Prop where
  txs : (done ++ completed C es).length ≤ cfg.maxTxs
  bytes : ((done ++ completed C es).map C.totalSize).sum ≤ cfg.maxBytes
  retained : Dir.bytes w.dir + (es.map (StoreEvent.size C)).sum ≤ cfg.retainBytes

variable {done : List Tx}

theorem Room.step (hr : Room C cfg w done es) {w' : Writer} {done' : List Tx}
    {es' : List (StoreEvent Tx)} (hsame : done' ++ completed C es' = done ++ completed C es)
    (hless : Dir.bytes w'.dir + (es'.map (StoreEvent.size C)).sum ≤
      Dir.bytes w.dir + (es.map (StoreEvent.size C)).sum) : Room C cfg w' done' es' :=
  ⟨hsame ▸ hr.txs, hsame ▸ hr.bytes, hless.trans hr.retained⟩

theorem Keeps.prepare (h : Keeps C w done) (hr : Room C cfg w done es) {seq : Nat}
    (hseq : ∀ tx ∈ done, seqOf C tx < seq) :
    Keeps C (Journal.prepare cfg w seq) done ∧ (Journal.prepare cfg w seq).path ≤ seq ∧
      Dir.bytes (Journal.prepare cfg w seq).dir = Dir.bytes w.dir := by
  obtain ⟨closed, cur, h, rfl⟩ := h
  obtain ⟨w', closed', cur', hholds, hstored, hpath, hbytes, hprepare⟩ := h.opened cfg hseq
  have hretain := hr.retained
  rw [enforceRetention_eq (by omega), or_self] at hprepare
  rw [hprepare]
  exact ⟨⟨closed', cur', hholds, hstored⟩, hpath, hbytes⟩

/-- `SegmentStore::open` gives back what the segments hold, whatever tail is torn. -/
theorem Keeps.openStore (h : Keeps C w done) (hr : Room C cfg w done es) (htorn : Torn C tail) :
    ∃ rec dir, Journal.openStore C cfg (Dir.append w.dir w.path tail) = some (rec, dir) ∧
      rec.transactions = done ∧ (tail = [] ∨ headerLen ≤ tail.length → dir = w.dir) := by
  obtain ⟨closed, cur, h, rfl⟩ := h
  have htxs := hr.txs
  have hbytes := hr.bytes
  rw [length_append] at htxs
  rw [map_append, sum_append] at hbytes
  obtain ⟨rec, hrec, -, hopen⟩ := @openStore_ordered _ _ cfg _ _ _ _ h.names h.fits htorn
  have hall :=
    (@foldl_push _ C cfg .none (stored closed ++ cur) (by rw [Recovered.none, nil_append]; omega)
    (by rw [Recovered.none, zero_add]; omega)).1
  refine ⟨rec, _, h.append_dir tail ▸ hopen, hrec.trans hall, ?_⟩
  rintro (rfl | hheader)
  · rw [ite_self, List.append_nil, h.dir]
  · rw [if_pos hheader, List.append_nil, h.dir]

theorem Keeps.reopen (h : Keeps C w done) (hr : Room C cfg w done es) (htorn : Torn C tail)
    (htail : tail = [] ∨ headerLen ≤ tail.length) :
    ∃ w', Journal.reopen C cfg (Dir.append w.dir w.path tail) = some w' ∧ Keeps C w' done ∧
      Dir.bytes w'.dir = Dir.bytes w.dir := by
  obtain ⟨rec, dir, hopen, -, hdir⟩ := h.openStore hr htorn
  obtain ⟨closed, cur, h, rfl⟩ := h
  obtain ⟨closed', cur', hholds, hstored, hsize⟩ := h.openWriter cfg
  rw [hdir htail] at hopen
  exact ⟨_, by rw [Journal.reopen, hopen]; rfl, ⟨closed', cur', hholds, hstored⟩, hsize⟩

open Runs in
theorem Keeps.run (hcareful : Careful C done es) (h : Keeps C w done) (hr : Room C cfg w done es) :
    ∃ w' rec dir, run (storeStep C cfg) w es = some w' ∧
      Journal.openStore C cfg w'.dir = some (rec, dir) ∧
        rec.transactions = done ++ completed C es := by
  induction hcareful generalizing w with
  | nil =>
    obtain ⟨rec, dir, hopen, hrec, -⟩ := h.openStore hr torn_nil
    rw [append_nil] at hopen
    exact ⟨w, rec, dir, rfl, hopen, hrec.trans (List.append_nil _).symm⟩
  | @completes done tx written es hseq hfits hwritten hes ih =>
    obtain ⟨⟨closed, cur, hholds, hstored⟩, hpath, hsize⟩ := h.prepare hr hseq
    have hbehind :
      done ++ [tx] ++ completed C es = done ++ completed C (.append tx written :: es) := by
      rw [completed_cons_some hwritten, append_assoc, singleton_append]
    rw [run_cons, storeStep, append_whole hwritten, ← hbehind]
    refine ih ⟨closed, _, hholds.append hfits hpath, by rw [← hstored, append_assoc]⟩
      (hr.step hbehind ?_)
    dsimp only
    rw [hholds.bytes_append, hsize, map_cons, sum_cons, StoreEvent.size]
    omega
  | @leavesNothing done tx es hseq hes ih =>
    obtain ⟨hkeeps, -, hsize⟩ := h.prepare hr hseq
    have hshort : 0 < (frame C tx).length := length_pos_of_ne_nil (frame_ne_nil tx)
    have hbehind : completed C (.append tx 0 :: es) = completed C es := completed_cons_none hshort
    rw [run_cons, storeStep, append_short hshort, take_zero, append_nil, hbehind]
    refine ih hkeeps (hr.step (by rw [hbehind]) ?_)
    dsimp only
    rw [hsize, map_cons, sum_cons]
    omega
  | @crashes done tx written es hseq hfits hheader hshort hes ih =>
    obtain ⟨hkeeps, -, hsize⟩ := h.prepare hr hseq
    have hbehind : completed C (.append tx written :: .reopen :: es) = completed C es :=
      completed_cons_none hshort
    have hlength : headerLen ≤ ((frame C tx).take written).length := by
      rw [length_take]
      omega
    have hroom : Room C cfg (Journal.prepare cfg w (seqOf C tx)) done es := by
      refine hr.step (by rw [hbehind]) ?_
      simp only [hsize, map_cons, sum_cons, StoreEvent.size]
      omega
    obtain ⟨w₁, hreopen, hkeeps₁, hsize₁⟩ :=
      hkeeps.reopen hroom (torn_take hfits hshort) (.inr hlength)
    rw [run_cons, storeStep, append_short hshort, Option.bind_some, run_cons, storeStep,
      hreopen, hbehind]
    exact ih hkeeps₁ (hroom.step rfl (by rw [hsize₁]))
  | @stops done tx written hseq hfits hshort =>
    obtain ⟨hkeeps, -, hsize⟩ := h.prepare hr hseq
    have hbehind : completed C [.append tx written] = [] := completed_cons_none hshort
    have hroom : Room C cfg (Journal.prepare cfg w (seqOf C tx)) done [.append tx written] :=
      hr.step rfl (by rw [hsize])
    obtain ⟨rec, dir, hopen, hrec, -⟩ := hkeeps.openStore hroom (torn_take hfits hshort)
    refine ⟨_, rec, dir, rfl, ?_, by rw [hrec, hbehind, List.append_nil]⟩
    rw [append_short hshort]
    exact hopen
  | @reopen done es hes ih =>
    obtain ⟨w₁, hreopen, hkeeps, hsize⟩ := h.reopen hr torn_nil (.inl rfl)
    rw [append_nil] at hreopen
    rw [run_cons, storeStep, hreopen]
    refine ih hkeeps (hr.step rfl ?_)
    simp [hsize, StoreEvent.size]

def runStore (C : Codec Tx) (cfg : StoreConfig) (es : List (StoreEvent Tx)) : Option Writer :=
  (reopen C cfg []).bind fun w => Runs.run (storeStep C cfg) w es

/-- The run goes through, and a restart behind it gives back the transactions whose
append completed, in order. -/
def RecoversCompleted (C : Codec Tx) (cfg : StoreConfig) (es : List (StoreEvent Tx)) : Prop :=
  ∃ w rec dir, runStore C cfg es = some w ∧ openStore C cfg w.dir = some (rec, dir) ∧
    rec.transactions = completed C es

structure Roomy (C : Codec Tx) (cfg : StoreConfig) (es : List (StoreEvent Tx)) : Prop where
  txs : (completed C es).length ≤ cfg.maxTxs
  bytes : ((completed C es).map C.totalSize).sum ≤ cfg.maxBytes
  retained : (es.map (StoreEvent.size C)).sum ≤ cfg.retainBytes

theorem holds_empty : Holds C { dir := [(1, [])], path := 1, len := 0 } [] [] where
  dir := rfl
  len := rfl
  names := pairwise_singleton _ _
  closed_named := by simp
  cur_named := .inl rfl
  fits := by simp [stored]

theorem recoversCompleted_of_careful {es : List (StoreEvent Tx)} (hcareful : Careful C [] es)
    (hroom : Roomy C cfg es) : RecoversCompleted C cfg es := by
  have hstart : reopen C cfg [] = some { dir := [(1, [])], path := 1, len := 0 } := by
    simp [reopen, openStore, listSegments, recoverFrom, openWriter, Dir.create, Dir.has]
  obtain ⟨w, rec, dir, hrun, hopen, hrec⟩ :=
    Keeps.run hcareful ⟨[], [], holds_empty, rfl⟩
      ⟨hroom.txs, hroom.bytes, by simpa [Dir.bytes] using hroom.retained⟩
  refine ⟨w, rec, dir, ?_, hopen, hrec⟩
  rw [runStore, hstart]
  exact hrun

def byteCodec : Codec UInt8 where
  encode t := [t]
  decode b := if b.length = 1 then b.head? else none
  decode_encode _ := rfl
  commitSeq t := some t.toNat
  totalSize _ := 1

def roomyConfig : StoreConfig where
  segmentBytes := 20
  segmentBytes_pos := by decide
  retainBytes := 1000
  maxTxs := 10
  maxBytes := 1000

/-- A crash inside a payload: the second transaction is cut off and the third kept. -/
theorem recoversCompleted_of_crash :
    RecoversCompleted byteCodec roomyConfig
      [.append 1 13, .append 2 12, .reopen, .append 3 13] := by
  have hfits : ∀ t : UInt8, Fits byteCodec t := fun _ => ⟨zero_lt_one, (by decide : 1 ≤ maxPayload)⟩
  refine recoversCompleted_of_careful ?_ ⟨by decide, by decide, by decide⟩
  refine .completes (by simp) (hfits 1) (le_refl 13) ?_
  refine .crashes (by simp [byteCodec, seqOf]) (hfits 2) (le_refl 12) (Nat.lt_succ_self 12) ?_
  exact .completes (by simp [byteCodec, seqOf]) (hfits 3) (le_refl 13) .nil

theorem lost_behind_header :
    ((runStore byteCodec roomyConfig [.append 1 13, .append 2 4, .reopen, .append 3 13]).bind
      fun w =>
      openStore byteCodec roomyConfig w.dir).map (fun r => r.1.transactions) = some [1] := by
  decide +kernel

theorem not_recoversCompleted :
    ¬ ∀ (Tx : Type) (C : Codec Tx) (cfg : StoreConfig) (es : List (StoreEvent Tx)), Roomy C cfg es →
      RecoversCompleted C cfg es := by
  intro h
  obtain ⟨w, rec, dir, hrun, hopen, hrec⟩ :=
    h UInt8 byteCodec roomyConfig [.append 1 13, .append 2 4, .reopen, .append 3 13]
      ⟨by decide, by decide, by decide⟩
  have hlost := lost_behind_header
  rw [hrun, Option.bind_some, hopen, Option.map_some, hrec] at hlost
  exact absurd hlost (by decide)

end HeliosProxy.Journal
