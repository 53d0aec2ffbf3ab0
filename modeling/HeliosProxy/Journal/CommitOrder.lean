import HeliosProxy.Journal.Recovery
import HeliosProxy.Journal.TransactionJournal

/-!
# Commit order on disk

A commit takes its number under the lock of the committed store and hands its record to
the sink afterwards, outside the lock; one thread writes the records in the order they
were handed over.  Here any number of sessions take these steps in any order, with
restarts in between.  Two sessions that hand over in the other order leave their
records the wrong way round on disk; where every session hands over only when none holds
an earlier commit, a restart gives back the commits in order, whatever the caps and the
retention drop.
-/

namespace HeliosProxy.Journal

open Wire List Option

variable {Tx : Type} {C : Codec Tx} {cfg : StoreConfig}

/-! ## The retention -/

variable {closed : List (Nat × List Tx)}

variable (cfg) in
theorem retired_segments {path : Nat} (bytes : Bytes) (total : Nat)
    (hnames : ∀ s ∈ closed, s.1 ≠ path) :
    ∃ k, retired cfg path (closed.map (segment C) ++ [(path, bytes)]) total =
      (closed.take k).map Prod.fst := by
  induction closed generalizing total with
  | nil => exact ⟨0, rfl⟩
  | cons s closed ih =>
    obtain ⟨g, segments, hrest⟩ :
      ∃ g segments, closed.map (segment C) ++ [(path, bytes)] = g :: segments :=
      exists_cons_of_ne_nil (by simp)
    rw [map_cons, cons_append, hrest, retired, ← hrest]
    split
    · obtain ⟨k, hk⟩ :=
        ih (total - (segment C s).2.length) fun t ht => hnames t (mem_cons_of_mem _ ht)
      exact ⟨k + 1, by rw [hk]; rfl⟩
    · exact ⟨0, rfl⟩

variable {w : Writer} {cur : List Tx}

variable (cfg) in
theorem Holds.retain
    (h : Holds C w closed cur) : ∃ k, Holds C (enforceRetention cfg w) (closed.drop k) cur := by
  have hnames := pairwise_append.1 h.names
  have hne : ∀ s ∈ closed, s.1 ≠ w.path := fun s hs =>
    ne_of_lt (hnames.2.2 s.1 (List.mem_map_of_mem hs) w.path (by simp))
  have hsorted : listSegments w.dir = w.dir :=
    listSegments_eq (by rw [h.dir, map_fst_segments]; exact h.names)
  obtain ⟨k, hk⟩ := retired_segments (C := C) cfg (cur.flatMap (frame C)) (Dir.bytes w.dir) hne
  have hgone :
    retired cfg w.path (listSegments w.dir) (Dir.bytes w.dir) = (closed.take k).map Prod.fst := by
    rw [← hk, hsorted, ← h.dir]
  have hsplit : ∀ s ∈ closed.take k, ∀ t ∈ closed.drop k, s.1 < t.1 := by
    have hlt := hnames.1
    rw [← take_append_drop k closed, map_append, pairwise_append] at hlt
    exact fun s hs t ht => hlt.2.2 s.1 (List.mem_map_of_mem hs) t.1 (List.mem_map_of_mem ht)
  have hdir : (enforceRetention cfg w).dir =
      (closed.drop k).map (segment C) ++ [(w.path, cur.flatMap (frame C))] := by
    have hfilter : w.dir.filter (fun f => f.1 ∉ (closed.take k).map Prod.fst) =
        (closed.drop k).map (segment C) ++ [(w.path, cur.flatMap (frame C))] := by
      have hparts : w.dir = (closed.take k).map (segment C) ++
          ((closed.drop k).map (segment C) ++ [(w.path, cur.flatMap (frame C))]) := by
        rw [h.dir, ← append_assoc, ← map_append, take_append_drop]
      rw [hparts, filter_append, filter_eq_nil_iff.2, nil_append, filter_eq_self.2]
      · intro f hf
        rw [decide_eq_true_iff]
        intro hmem
        obtain ⟨s, hs, hname⟩ := List.mem_map.1 hmem
        rcases mem_append.1 hf with hf | hf
        · obtain ⟨t, ht, rfl⟩ := List.mem_map.1 hf
          exact ne_of_lt (hsplit s hs t ht) hname
        · rw [mem_singleton.1 hf] at hname
          exact hne s (mem_of_mem_take hs) hname
      · intro f hf
        obtain ⟨s, hs, rfl⟩ := List.mem_map.1 hf
        rw [decide_eq_true_iff, not_not]
        exact List.mem_map_of_mem hs
    rw [enforceRetention, hgone, hfilter]
  have hdrop : closed.drop k <:+ closed := drop_suffix k closed
  refine ⟨k, hdir, h.len, ?_, fun s hs => h.closed_named s (hdrop.mem hs), h.cur_named,
    fun tx htx => ?_⟩
  · exact h.names.sublist (Sublist.append (hdrop.sublist.map Prod.fst) (Sublist.refl _))
  · refine h.fits tx ?_
    rcases mem_append.1 htx with htx | htx
    · obtain ⟨s, hs, hmem⟩ := mem_flatMap.1 htx
      exact mem_append_left _ (mem_stored (hdrop.mem hs) hmem)
    · exact mem_append_right _ htx

variable (cfg) in
theorem Holds.appended {tx : Tx}
    (h : Holds C w closed cur) (hseq : ∀ t ∈ stored closed ++ cur, seqOf C t < seqOf C tx)
    (hfits : Fits C tx) :
    ∃ closed' cur', Holds C (Journal.append C cfg w tx (frame C tx).length) closed' cur' ∧
      stored closed' ++ cur' <:+ stored closed ++ cur ++ [tx] := by
  have hprepared : ∃ closed' cur', Holds C (Journal.prepare cfg w (seqOf C tx)) closed' cur' ∧
      stored closed' ++ cur' <:+ stored closed ++ cur ∧
      (Journal.prepare cfg w (seqOf C tx)).path ≤ seqOf C tx := by
    obtain ⟨w', closed', cur', hholds, hstored, hpath, -, hprepare | hprepare⟩ := h.opened cfg hseq
    · rw [hprepare, ← hstored]
      exact ⟨closed', cur', hholds, suffix_rfl, hpath⟩
    · obtain ⟨k, hretained⟩ := hholds.retain cfg
      rw [hprepare, ← hstored]
      refine ⟨closed'.drop k, cur', hretained, ?_, hpath⟩
      refine ⟨stored (closed'.take k), ?_⟩
      rw [← append_assoc, stored, stored, stored, ← flatMap_append, take_append_drop]
  obtain ⟨closed', cur', hholds, hsuffix, hpath⟩ := hprepared
  refine ⟨closed', cur' ++ [tx], ?_, ?_⟩
  · rw [append_whole (le_refl _)]
    exact hholds.append hfits hpath
  · rw [← append_assoc]
    exact (suffix_append_inj_of_length_eq rfl).mpr ⟨hsuffix, rfl⟩

variable (cfg) in
theorem Holds.recovered (h : Holds C w closed cur) :
    ∃ rec, Journal.openStore C cfg w.dir = some (rec, w.dir) ∧
      rec.transactions <:+ stored closed ++ cur ∧
      ∀ tx ∈ stored closed ++ cur, seqOf C tx ≤ rec.commitSeqHigh := by
  obtain ⟨rec, hrec, hhigh, hopen⟩ := @openStore_ordered _ _ cfg _ _ _ _ h.names h.fits torn_nil
  obtain ⟨hsuffix, -, hnumbers⟩ :=
    foldl_push_suffix (C := C) cfg (stored closed ++ cur) .none
  rw [List.append_nil, ite_self, List.append_nil, ← h.dir] at hopen
  exact ⟨rec, hopen, hrec ▸ hsuffix, fun tx htx => hhigh ▸ hnumbers tx htx⟩

/-! ## Sessions and the writer -/

structure Records (Tx : Type) extends Codec Tx where
  stamp : Tx → Nat → Tx
  commitSeq_stamp : ∀ tx n, commitSeq (stamp tx n) = some n

/-- The next number, the records of the sessions between `push_committed` and
`after_commit`, the sink's queue and the writer. -/
structure Commits (Tx : Type) where
  nextCommitSeq : Nat
  held : List (Nat × Tx)
  queue : List Tx
  writer : Writer

inductive CommitStep (Tx : Type)
  | pushCommitted (session : Nat) (tx : Tx)
  | afterCommit (session : Nat)
  | write
  | restart

/-- Before `b`, by the numbers of both. -/
def CommittedBefore (R : Records Tx) (a b : Tx) : Prop :=
  ∃ m n, R.commitSeq a = some m ∧ R.commitSeq b = some n ∧ m < n

namespace Commits

def init (cfg : StoreConfig) : Commits Tx where
  nextCommitSeq := 1
  held := []
  queue := []
  writer := openWriter cfg []

/-- A session makes one commit after another.  No record is dropped: one is handed over
while the queue has room.  A restart may come at any time; it loses what is not written. -/
def step (R : Records Tx) (cfg : StoreConfig) (capacity : Nat) (s : Commits Tx) :
    CommitStep Tx → Option (Commits Tx)
  | .pushCommitted session tx =>
    if s.held.any (·.1 == session) then none
    else some { s with
      nextCommitSeq := s.nextCommitSeq + 1
      held := s.held ++ [(session, R.stamp tx s.nextCommitSeq)] }
  | .afterCommit session =>
    (s.held.lookup session).bind fun record =>
      if s.queue.length < capacity then
        some { s with held := s.held.filter (·.1 ≠ session), queue := s.queue ++ [record] }
      else none
  | .write =>
    match s.queue with
    | [] => none
    | record :: queue =>
      some { s with
        queue
        writer := append R.toCodec cfg s.writer record (frame R.toCodec record).length }
  | .restart =>
    (openStore R.toCodec cfg s.writer.dir).map fun (rec, dir) =>
      ⟨max 1 (rec.commitSeqHigh + 1), [], [], openWriter cfg dir⟩

def RecoversInOrder (R : Records Tx) (cfg : StoreConfig) (s : Commits Tx) : Prop :=
  ∃ rec dir, openStore R.toCodec cfg s.writer.dir = some (rec, dir) ∧
    rec.transactions.Pairwise (CommittedBefore R)

/-- A record is handed over when no session holds an earlier one, and can be read
back. -/
def InTurn (R : Records Tx) (s : Commits Tx) : CommitStep Tx → Prop
  | .pushCommitted _ tx => Fits R.toCodec (R.stamp tx s.nextCommitSeq)
  | .afterCommit session =>
    ∀ own ∈ s.held.lookup session, ∀ p ∈ s.held, seqOf R.toCodec own ≤ seqOf R.toCodec p.2
  | _ => True

instance (C : Codec Tx) (tx : Tx) : Decidable (Fits C tx) := inferInstanceAs (Decidable (_ ∧ _))

instance (R : Records Tx) (s : Commits Tx) (a : CommitStep Tx) : Decidable (s.InTurn R a) := by
  cases a <;> unfold Commits.InTurn <;> infer_instance

def line (s : Commits Tx) (disk : List Tx) : List Tx := disk ++ s.queue ++ s.held.map Prod.snd

structure Ordered (R : Records Tx) (s : Commits Tx) (closed : List (Nat × List Tx))
    (cur : List Tx) :
    Prop where
  holds : Holds R.toCodec s.writer closed cur
  inOrder : (s.line (stored closed ++ cur)).Pairwise (CommittedBefore R)
  numbered : ∀ tx ∈ s.line (stored closed ++ cur), ∃ n, R.commitSeq tx = some n ∧
    n < s.nextCommitSeq
  fits : ∀ tx ∈ s.line (stored closed ++ cur), Fits R.toCodec tx
  sessions : (s.held.map Prod.fst).Nodup

variable {R : Records Tx}

theorem seqOf_lt {a b : Tx} (h : CommittedBefore R a b) :
    seqOf R.toCodec a < seqOf R.toCodec b := by
  obtain ⟨m, n, ha, hb, hlt⟩ := h
  rw [seqOf, seqOf, ha, hb]
  exact hlt

namespace Ordered

variable {s s' : Commits Tx} {closed : List (Nat × List Tx)} {cur : List Tx} {capacity : Nat}
  (h : Ordered R s closed cur)
include h

theorem recoversInOrder : s.RecoversInOrder R cfg := by
  obtain ⟨rec, hopen, hsuffix, -⟩ := h.holds.recovered cfg
  refine ⟨rec, s.writer.dir, hopen, h.inOrder.sublist (hsuffix.sublist.trans ?_)⟩
  rw [line, append_assoc]
  exact sublist_append_left _ _

variable {session : Nat}

theorem pushCommitted {tx : Tx} (hfree : session ∉ s.held.map Prod.fst)
    (hfits : Fits R.toCodec (R.stamp tx s.nextCommitSeq)) :
    Ordered R { s with
      nextCommitSeq := s.nextCommitSeq + 1
      held := s.held ++ [(session, R.stamp tx s.nextCommitSeq)] } closed cur := by
  have hline : line { s with
      nextCommitSeq := s.nextCommitSeq + 1
      held := s.held ++ [(session, R.stamp tx s.nextCommitSeq)] } (stored closed ++ cur) =
        s.line (stored closed ++ cur) ++ [R.stamp tx s.nextCommitSeq] := by
    simp [line]
  refine ⟨h.holds, ?_, ?_, ?_, ?_⟩
  · rw [hline]
    refine pairwise_append.2 ⟨h.inOrder, pairwise_singleton _ _, fun a ha b hb => ?_⟩
    obtain ⟨n, hn, hlt⟩ := h.numbered a ha
    rw [mem_singleton.1 hb]
    exact ⟨n, s.nextCommitSeq, hn, R.commitSeq_stamp _ _, hlt⟩
  · rw [hline]
    refine forall_mem_append.2 ⟨fun t ht => ?_, fun t ht => ?_⟩
    · obtain ⟨n, hn, hlt⟩ := h.numbered t ht
      exact ⟨n, hn, Nat.lt_succ_of_lt hlt⟩
    · rw [mem_singleton.1 ht]
      exact ⟨s.nextCommitSeq, R.commitSeq_stamp _ _, Nat.lt_succ_self _⟩
  · rw [hline]
    refine forall_mem_append.2 ⟨h.fits, fun t ht => ?_⟩
    rw [mem_singleton.1 ht]
    exact hfits
  · rw [map_append]
    refine nodup_append.2 ⟨h.sessions, nodup_singleton _, fun a ha b hb heq => hfree ?_⟩
    obtain rfl : b = session := mem_singleton.1 hb
    exact heq ▸ ha

theorem held_eq {own : Tx} (hown : s.held.lookup session = some own)
    (hfirst : ∀ p ∈ s.held, seqOf R.toCodec own ≤ seqOf R.toCodec p.2) :
    s.held = (session, own) :: s.held.filter (·.1 ≠ session) := by
  have hmem : (session, own) ∈ s.held := by
    obtain ⟨before, behind, hsplit, -⟩ := lookup_eq_some_iff.1 hown
    rw [hsplit]
    simp
  have horder : (s.held.map Prod.snd).Pairwise (CommittedBefore R) :=
    (pairwise_append.1 h.inOrder).2.1
  have hsessions := h.sessions
  cases hheld : s.held with
  | nil =>
    rw [hheld] at hmem
    cases hmem
  | cons p rest =>
    rw [hheld] at hmem horder hsessions hfirst
    rw [map_cons, pairwise_cons] at horder
    rw [map_cons, nodup_cons] at hsessions
    rcases mem_cons.1 hmem with rfl | hrest
    · have hothers : ∀ q ∈ rest, decide (q.1 ≠ session) := by
        intro q hq
        refine decide_eq_true fun heq => hsessions.1 ?_
        rw [show (session, own).1 = q.1 from heq.symm]
        exact List.mem_map_of_mem hq
      rw [filter_cons_of_neg (by simp), filter_eq_self.2 hothers]
    · have hbefore := seqOf_lt (horder.1 own (List.mem_map_of_mem hrest))
      exact absurd (hfirst p mem_cons_self) (Nat.not_le_of_lt hbefore)

theorem afterCommit {own : Tx} (hown : s.held.lookup session = some own)
    (hfirst : ∀ p ∈ s.held, seqOf R.toCodec own ≤ seqOf R.toCodec p.2) :
    Ordered R { s with held := s.held.filter (·.1 ≠ session), queue := s.queue ++ [own] }
      closed cur := by
  have hheld := h.held_eq hown hfirst
  have hline : line { s with held := s.held.filter (·.1 ≠ session), queue := s.queue ++ [own] }
      (stored closed ++ cur) = s.line (stored closed ++ cur) := by
    rw [line, line, hheld]
    simp
  have hsessions := h.sessions
  rw [hheld, map_cons, nodup_cons] at hsessions
  exact ⟨h.holds, hline ▸ h.inOrder, hline ▸ h.numbered, hline ▸ h.fits, hsessions.2⟩

theorem write {record : Tx} {queue : List Tx} (hqueue : s.queue = record :: queue) :
    ∃ closed' cur', Ordered R
      { s with
        queue
        writer := append R.toCodec cfg s.writer record (frame R.toCodec record).length }
      closed' cur' := by
  have hline : s.line (stored closed ++ cur) =
      stored closed ++ cur ++ [record] ++ (queue ++ s.held.map Prod.snd) := by
    rw [line, hqueue]
    simp
  have horder := h.inOrder
  rw [hline, pairwise_append, pairwise_append] at horder
  have hrecord : record ∈ s.line (stored closed ++ cur) := by
    rw [hline]
    simp
  obtain ⟨closed', cur', hholds, hsuffix⟩ := h.holds.appended cfg
    (fun t ht => seqOf_lt (horder.1.2.2 t ht record (mem_singleton_self _))) (h.fits record hrecord)
  have hbehind : stored closed' ++ cur' ++ (queue ++ s.held.map Prod.snd) <:+
      s.line (stored closed ++ cur) := by
    rw [hline]
    exact (suffix_append_inj_of_length_eq rfl).mpr ⟨hsuffix, rfl⟩
  rw [← append_assoc] at hbehind
  exact ⟨closed', cur', hholds, h.inOrder.sublist hbehind.sublist,
    fun t ht => h.numbered t (hbehind.mem ht), fun t ht => h.fits t (hbehind.mem ht), h.sessions⟩

theorem restart {rec : Recovered Tx} {dir : Dir}
    (hopen : openStore R.toCodec cfg s.writer.dir = some (rec, dir)) :
    ∃ closed' cur', Ordered R ⟨max 1 (rec.commitSeqHigh + 1), [], [], openWriter cfg dir⟩
      closed' cur' := by
  obtain ⟨rec', hopen', -, hhigh⟩ := h.holds.recovered cfg
  obtain ⟨rfl, rfl⟩ : rec' = rec ∧ s.writer.dir = dir := by
    rw [hopen] at hopen'
    cases hopen'
    exact ⟨rfl, rfl⟩
  obtain ⟨closed', cur', hholds, hstored, -⟩ := h.holds.openWriter cfg
  have hdisk : ∀ t ∈ stored closed ++ cur, t ∈ s.line (stored closed ++ cur) := fun t ht => by
    rw [line, append_assoc]
    exact mem_append_left _ ht
  have hline : @line Tx ⟨max 1 (rec'.commitSeqHigh + 1), [], [], openWriter cfg s.writer.dir⟩
      (stored closed' ++ cur') = stored closed ++ cur := by
    simp [line, hstored]
  have horder := h.inOrder
  rw [line, append_assoc, pairwise_append] at horder
  refine ⟨closed', cur', hholds, hline ▸ horder.1, hline ▸ fun t ht => ?_,
    hline ▸ fun t ht => h.fits t (hdisk t ht), nodup_nil⟩
  obtain ⟨n, hn, -⟩ := h.numbered t (hdisk t ht)
  have hle := hhigh t ht
  rw [seqOf, hn] at hle
  exact ⟨n, hn, lt_max_of_lt_right (Nat.lt_succ_of_le hle)⟩

theorem step {a : CommitStep Tx} (hturn : s.InTurn R a)
    (hstep : s.step R cfg capacity a = some s') :
    ∃ closed' cur', Ordered R s' closed' cur' := by
  cases a with
  | pushCommitted session tx =>
    obtain ⟨hbusy, ⟨⟩⟩ := ite_none_left_eq_some.mp hstep
    refine ⟨closed, cur, h.pushCommitted (fun hmem => hbusy ?_) hturn⟩
    obtain ⟨p, hp, rfl⟩ := List.mem_map.1 hmem
    exact List.any_eq_true.2 ⟨p, hp, beq_self_eq_true _⟩
  | afterCommit session =>
    obtain ⟨own, hown, hstep⟩ := bind_eq_some_iff.mp hstep
    obtain ⟨-, ⟨⟩⟩ := ite_none_right_eq_some.mp hstep
    exact ⟨closed, cur, h.afterCommit hown (hturn own hown)⟩
  | write =>
    simp only [Commits.step] at hstep
    split at hstep <;> cases hstep
    next hqueue => exact h.write hqueue
  | restart =>
    obtain ⟨⟨rec, dir⟩, hopen, rfl⟩ := map_eq_some_iff.mp hstep
    exact h.restart hopen

end Ordered

theorem ordered_init (cfg : StoreConfig) : Ordered R (init cfg) [] [] where
  holds := by
    have hwriter : (init cfg : Commits Tx).writer = { dir := [(1, [])], path := 1, len := 0 } := by
      simp [init, openWriter, listSegments, Dir.create, Dir.has]
    rw [hwriter]
    exact holds_empty
  inOrder := .nil
  numbered := nofun
  fits := nofun
  sessions := .nil

end Commits

/-- Along a run of steps in turn, a restart gives back the commits in order at any
time. -/
theorem recovers_in_commit_order (R : Records Tx) (cfg : StoreConfig) (capacity : Nat)
    (steps : List (CommitStep Tx)) {s : Commits Tx}
    (hturns : Runs.Along (Commits.step R cfg capacity) (Commits.InTurn R) (.init cfg) steps)
    (hran : Runs.run (Commits.step R cfg capacity) (.init cfg) steps = some s) :
    s.RecoversInOrder R cfg := by
  have hstep : ∀ (s : Commits Tx) a s', (∃ closed cur, Commits.Ordered R s closed cur) →
      s.InTurn R a → s.step R cfg capacity a = some s' →
        ∃ closed cur, Commits.Ordered R s' closed cur := by
    rintro s a s' ⟨closed, cur, h⟩ hturn hstep
    exact h.step hturn hstep
  obtain ⟨closed, cur, h⟩ :=
    Runs.run_invariant_along hstep ⟨[], [], Commits.ordered_init cfg⟩ hturns hran
  exact h.recoversInOrder

def numberRecords : Records Nat where
  encode n := List.replicate (n + 1) 0
  decode b := if b.length = 0 then none else some (b.length - 1)
  decode_encode n := by simp
  commitSeq := some
  totalSize _ := 1
  stamp _ n := n
  commitSeq_stamp _ _ := rfl

/-- Two commits written out one after the other, with a restart in between. -/
theorem recovers_in_commit_order_two :
    ∃ s, Runs.run (Commits.step numberRecords roomyConfig 8) (.init roomyConfig)
        [.pushCommitted 0 0, .pushCommitted 1 0, .afterCommit 0, .write, .restart,
          .pushCommitted 1 0,
          .afterCommit 1, .write] = some s ∧
      s.nextCommitSeq = 3 ∧ s.RecoversInOrder numberRecords roomyConfig := by
  have hran : ((Runs.run (Commits.step numberRecords roomyConfig 8) (.init roomyConfig)
      [.pushCommitted 0 0, .pushCommitted 1 0, .afterCommit 0, .write, .restart, .pushCommitted 1 0,
        .afterCommit 1, .write]).map (·.nextCommitSeq)) = some 3 := by decide +kernel
  obtain ⟨s, hs, hnext⟩ := map_eq_some_iff.1 hran
  exact ⟨s, hs, hnext,
    recovers_in_commit_order numberRecords roomyConfig 8 _ (by decide +kernel) hs⟩

def overtaken : List (CommitStep Nat) :=
  [.pushCommitted 0 0, .pushCommitted 1 0, .afterCommit 1, .afterCommit 0, .write, .write]

theorem recovered_overtaken :
    ((Runs.run (Commits.step numberRecords roomyConfig 8) (.init roomyConfig) overtaken).bind
      fun s =>
      openStore numberRecords.toCodec roomyConfig s.writer.dir).map (fun r => r.1.transactions) =
        some [2, 1] := by
  decide +kernel

theorem not_recovers_in_commit_order :
    ∃ s, Runs.run (Commits.step numberRecords roomyConfig 8)
      (.init roomyConfig) overtaken = some s ∧
      ¬ s.RecoversInOrder numberRecords roomyConfig := by
  obtain ⟨⟨rec, dir⟩, hbind, hrec⟩ := map_eq_some_iff.1 recovered_overtaken
  obtain ⟨s, hrun, hopen⟩ := bind_eq_some_iff.1 hbind
  refine ⟨s, hrun, ?_⟩
  rintro ⟨rec', dir', hopen', horder⟩
  cases hopen.symm.trans hopen'
  rw [hrec, pairwise_cons] at horder
  obtain ⟨m, n, ⟨⟩, ⟨⟩, hlt⟩ := horder.1 1 (mem_singleton_self _)
  exact absurd hlt (by decide)

end HeliosProxy.Journal
