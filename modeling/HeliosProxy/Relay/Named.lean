import HeliosProxy.Relay.Unnamed

/-!
# Named statements over several backend connections

The session's registry keeps the `Parse` of every named statement, entered when the
`Parse` is received.  A batch that refers to a statement its connection lacks has it
prepared there out of band, and a name closed through one connection is stale on
the others until it is closed there too.

A session here is its registry, its connections with the backends behind them, and
what the client was told: the definition of each name whose `Parse` was
acknowledged last.
-/

namespace HeliosProxy.Relay

open Text Postgres List Option Function

variable {D B : Type}

/-! ## Collecting a batch -/

/-- `[limits]`, and the length of an encoded `Parse`. -/
structure Limits (D : Type) where
  maxPreparedStatements : Nat
  maxPreparedBytes : Nat
  encodedLen : Str → D → Nat

/-- `stmt_registry` and `stmt_registry_bytes`. -/
structure Registry (D : Type) where
  stmts : AList fun _ : Str => D
  bytes : Nat

/-- `bind_stmt_ref`, and `stmt_kind_name` of a statement: not the unnamed one, and
no name that is no UTF-8. -/
def stmtRef (name : WireStr) : Option Str :=
  name.utf8?.filter fun s => !s.isEmpty

variable {name : WireStr} {s : Str}

@[simp] theorem stmtRef_eq_some :
    stmtRef name = some s ↔ name = .text s ∧ s ≠ [] := by
  cases name with
  | text t =>
    simp only [stmtRef, WireStr.utf8?, filter_eq_some_iff, Option.some.injEq,
      WireStr.text.injEq]
    constructor
    · rintro ⟨rfl, hs⟩
      exact ⟨rfl, by simpa using hs⟩
    · rintro ⟨rfl, hs⟩
      exact ⟨rfl, by simpa using hs⟩
  | raw bytes => simp [stmtRef, WireStr.utf8?]

/-- The statement a message refers to, defines, or closes, as the batch's lists see it. -/
def refName : Message WireStr D B → Option Str
  | .bind _ name _ | .describe name => stmtRef name
  | _ => none

def defName : Message WireStr D B → Option Str
  | .parse name _ => stmtRef name
  | _ => none

def closeName : Message WireStr D B → Option Str
  | .closeStatement name => stmtRef name
  | _ => none

/-- The batch's lists, and the registry its `Parse`s are entered in. -/
structure BatchNames (D : Type) where
  registry : Registry D
  refs : List Str
  defines : List Str
  closes : List Str
  leftClosed : List Str

def BatchNames.start (r : Registry D) : BatchNames D := ⟨r, [], [], [], []⟩

/-- A named `Parse`, entered unless it goes over one of the caps, which ends the
session. -/
def Registry.define (L : Limits D) (r : Registry D) (name : Str) (d : D) : Option (Registry D) :=
  let old := r.stmts.lookup name
  if old.isNone && L.maxPreparedStatements ≤ r.stmts.keys.length then none
  else
    let projected := r.bytes - (old.map (L.encodedLen name)).getD 0 + L.encodedLen name d
    if L.maxPreparedBytes < projected then none else some ⟨r.stmts.insert name d, projected⟩

def Registry.remove (L : Limits D) (r : Registry D) (name : Str) : Registry D :=
  ⟨r.stmts.erase name, r.bytes - ((r.stmts.lookup name).map (L.encodedLen name)).getD 0⟩

def rememberBatchName (L : Limits D) (list : List Str) (name : Str) : List Str :=
  Lists.addNewUpTo L.maxPreparedStatements list name

namespace BatchNames

def note (L : Limits D) (t : BatchNames D) (m : Message WireStr D B) : Option (BatchNames D) :=
  match m with
  | .parse name d =>
    match stmtRef name with
    | none => some t
    | some s =>
      (t.registry.define L s d).map fun r =>
        { t with
          registry := r
          defines := rememberBatchName L t.defines s
          -- `forget_batch_close`, up to the order of the list
          leftClosed := t.leftClosed.erase s }
  | .bind _ name _ | .describe name =>
    some { t with refs := (stmtRef name).elim t.refs (rememberBatchName L t.refs) }
  | .closeStatement name =>
    some { t with
      closes := (stmtRef name).elim t.closes (rememberBatchName L t.closes)
      leftClosed := (stmtRef name).elim t.leftClosed (rememberBatchName L t.leftClosed) }
  | .execute _ | .describePortal _ | .closePortal _ => some t

def noteAll (L : Limits D) (r : Registry D) (messages : List (Message WireStr D B)) :
    Option (BatchNames D) :=
  messages.foldlM (note L) (start r)

/-- What `forward_extended_batch` may have to prepare first. -/
def reprepare (t : BatchNames D) : List Str := t.refs.filter (· ∉ t.defines)

def registryAfter (L : Limits D) (t : BatchNames D) : Registry D :=
  t.leftClosed.foldl (Registry.remove L) t.registry

end BatchNames

/-- What the last `Parse` or `Close` of a name among the messages says. -/
def lastWord (name : WireStr) (messages : List (Message WireStr D B)) : Option (Option D) :=
  messages.reverse.findSome? (·.touch unnamed name true)

theorem lastWord_append (name : WireStr) (done : List (Message WireStr D B))
    (m : Message WireStr D B) :
    lastWord name (done ++ [m]) = (m.touch unnamed name true).or (lastWord name done) := by
  cases h : m.touch unnamed name true <;> simp [lastWord, h]

/-- The names fit in the batch's lists.  Those it defines always do, as the registry
has the same cap. -/
@[mk_iff]
structure NamesFit (L : Limits D) (messages : List (Message WireStr D B)) : Prop where
  refs : (messages.filterMap refName).dedup.length ≤ L.maxPreparedStatements
  closes : (messages.filterMap closeName).dedup.length ≤ L.maxPreparedStatements

/-- What the lists and the registry say after some messages of the batch. -/
structure BatchNames.Spec (L : Limits D) (r : Registry D) (done : List (Message WireStr D B))
    (t : BatchNames D) : Prop where
  refs : t.refs = (done.filterMap refName).foldl Lists.addNew []
  defines : t.defines = (done.filterMap defName).foldl Lists.addNew []
  closes : t.closes = (done.filterMap closeName).foldl Lists.addNew []
  leftNodup : t.leftClosed.Nodup
  leftClosed : t.leftClosed ⊆ t.closes
  size : t.registry.stmts.keys.length ≤ L.maxPreparedStatements
  defined : ∀ s ∈ t.defines, s ∈ t.registry.stmts
  kept : ∀ s : Str, s ∉ t.defines → t.registry.stmts.lookup s = r.stmts.lookup s
  effective : ∀ s : Str, s ≠ [] → (if s ∈ t.leftClosed then none else t.registry.stmts.lookup s) =
    (lastWord (.text s) done).getD (r.stmts.lookup s)

variable {L : Limits D} {d : D}

theorem Registry.define_eq_some {r r' : Registry D}
    (h : r.define L s d = some r') (hsize : r.stmts.keys.length ≤ L.maxPreparedStatements) :
    r'.stmts = r.stmts.insert s d ∧ r'.stmts.keys.length ≤ L.maxPreparedStatements := by
  simp only [Registry.define] at h
  split at h
  · cases h
  · rename_i hroom
    split at h
    · cases h
    · cases h
      refine ⟨rfl, ?_⟩
      have hkeys : ∀ x, x ∈ (r.stmts.insert s d).keys ↔ x = s ∨ x ∈ r.stmts.keys := fun x => by
        rw [← AList.mem_keys, AList.mem_insert, AList.mem_keys]
      by_cases hs : s ∈ r.stmts
      · have hsub : (r.stmts.insert s d).keys ⊆ r.stmts.keys := by
          intro x hx
          rcases (hkeys x).mp hx with rfl | hx
          · exact AList.mem_keys.mp hs
          · exact hx
        exact ((AList.keys_nodup _).subperm hsub).length_le.trans hsize
      · have hsub : (r.stmts.insert s d).keys ⊆ s :: r.stmts.keys := fun x hx =>
          mem_cons.mpr ((hkeys x).mp hx)
        have hlen := ((AList.keys_nodup _).subperm hsub).length_le
        simp only [AList.lookup_eq_none.mpr hs, isNone_none, Bool.true_and,
          decide_eq_true_eq, not_le] at hroom
        exact hlen.trans hroom

namespace BatchNames

variable {L : Limits D} {r : Registry D} {done : List (Message WireStr D B)} {t t' : BatchNames D}

theorem Spec.start (hsize : r.stmts.keys.length ≤ L.maxPreparedStatements) :
    Spec L r ([] : List (Message WireStr D B)) (start r) where
  refs := rfl
  defines := rfl
  closes := rfl
  leftNodup := nodup_nil
  leftClosed := nil_subset _
  size := hsize
  defined _ hs := nomatch hs
  kept _ _ := rfl
  effective s _ := by simp [BatchNames.start, lastWord]

variable {all : List Str}

theorem remember_eq {names : List Str} (hsub : names ⊆ all) (hs : s ∈ all)
    (hall : all.dedup.length ≤ L.maxPreparedStatements) :
    rememberBatchName L (names.foldl Lists.addNew []) s = (names ++ [s]).foldl Lists.addNew [] := by
  rw [foldl_append]
  refine Lists.addNewUpTo_eq _ (Lists.nodup_foldl_addNew nodup_nil _) ?_ hs hall
  intro x hx
  exact hsub (by simpa using hx)

variable {name : WireStr}

theorem Spec.parse (h : Spec L r done t)
    (hnote : t.note L (.parse name d : Message WireStr D B) = some t') :
    Spec L r (done ++ [.parse name d]) t' := by
  simp only [note] at hnote
  cases hs : stmtRef name with
  | none =>
    rw [hs] at hnote
    cases hnote
    have htouch : ∀ s : Str, s ≠ [] → name ≠ .text s := fun s hne hname => by
      simp [stmtRef_eq_some.mpr ⟨hname, hne⟩] at hs
    refine { h with refs := ?_, defines := ?_, closes := ?_, effective := fun s hne => ?_ }
    · simpa [refName, filterMap_cons] using h.refs
    · simpa [defName, hs] using h.defines
    · simpa [closeName, filterMap_cons] using h.closes
    · rw [lastWord_append, h.effective s hne]
      simp [Message.touch, htouch s hne]
  | some s =>
    rw [hs] at hnote
    obtain ⟨r', hdefine, rfl⟩ := map_eq_some_iff.mp hnote
    obtain ⟨hstmts, hsize⟩ := Registry.define_eq_some hdefine h.size
    obtain ⟨rfl, hne⟩ := stmtRef_eq_some.mp hs
    have hdefines : rememberBatchName L t.defines s = Lists.addNew t.defines s := by
      refine Lists.addNewUpTo_eq r'.stmts.keys ?_ (fun x hx => ?_) ?_ ?_
      · rw [h.defines]
        exact Lists.nodup_foldl_addNew nodup_nil _
      · rw [← AList.mem_keys, hstmts, AList.mem_insert]
        exact .inr (h.defined x hx)
      · rw [← AList.mem_keys, hstmts, AList.mem_insert]
        exact .inl rfl
      · rwa [(AList.keys_nodup _).dedup]
    refine ⟨?_, ?_, ?_, h.leftNodup.erase s, ?_, hsize, fun x hx => ?_, fun x hx => ?_,
      fun x hx => ?_⟩
    · simpa [refName, filterMap_cons] using h.refs
    · rw [filterMap_append, foldl_append, ← h.defines]
      simpa [defName, hs] using hdefines
    · simpa [closeName, filterMap_cons] using h.closes
    · exact fun x hx => h.leftClosed (List.mem_of_mem_erase hx)
    · simp only [hdefines, Lists.mem_addNew] at hx
      rw [hstmts, AList.mem_insert]
      exact hx.symm.imp id (h.defined x)
    · simp only [hdefines, Lists.mem_addNew, not_or] at hx
      rw [← h.kept x hx.1, hstmts, AList.lookup_insert_ne hx.2]
    · rw [lastWord_append]
      by_cases hxs : x = s
      · subst hxs
        simp [Message.touch, hstmts, h.leftNodup.mem_erase_iff]
      · have := h.effective x hx
        simp only [hstmts, AList.lookup_insert_ne hxs, h.leftNodup.mem_erase_iff, ne_eq, hxs,
          not_false_eq_true, true_and]
        simp [this, Message.touch, Ne.symm hxs]

variable {m : Message WireStr D B}

theorem Spec.ref (h : Spec L r done t)
    (hdef : defName m = none) (hclose : closeName m = none)
    (htouch : ∀ name, m.touch unnamed name true = none)
    (hsub : (done ++ [m]).filterMap refName ⊆ all)
    (hall : all.dedup.length ≤ L.maxPreparedStatements) :
    Spec L r (done ++ [m])
      { t with refs := (refName m).elim t.refs (rememberBatchName L t.refs) } := by
  refine { h with refs := ?_, defines := ?_, closes := ?_, effective := fun s hne => ?_ }
  · rw [filterMap_append] at hsub ⊢
    cases hs : refName m with
    | none => simpa [hs] using h.refs
    | some s =>
      simp only [filterMap_cons, hs] at hsub ⊢
      rw [h.refs]
      exact remember_eq (fun x hx => hsub (mem_append_left _ hx)) (hsub (by simp)) hall
  · simpa [hdef] using h.defines
  · simpa [hclose] using h.closes
  · rw [lastWord_append, htouch]
    exact h.effective s hne

theorem Spec.close (h : Spec L r done t)
    (hsub : (done ++ [(.closeStatement name : Message WireStr D B)]).filterMap closeName ⊆ all)
    (hall : all.dedup.length ≤ L.maxPreparedStatements) :
    Spec L r (done ++ [(.closeStatement name : Message WireStr D B)]) { t with
        closes := (stmtRef name).elim t.closes (rememberBatchName L t.closes)
        leftClosed := (stmtRef name).elim t.leftClosed (rememberBatchName L t.leftClosed) } := by
  have hrefs : t.refs = ((done ++ [Message.closeStatement name]).filterMap refName).foldl Lists.addNew [] := by
    simpa [refName, filterMap_cons] using h.refs
  have hdefines :
      t.defines = ((done ++ [Message.closeStatement name]).filterMap defName).foldl Lists.addNew [] := by
    simpa [defName, filterMap_cons] using h.defines
  rw [filterMap_append] at hsub
  cases hs : stmtRef name with
  | none =>
    have htouch : ∀ s : Str, s ≠ [] → name ≠ .text s := fun s hne hname => by
      simp [stmtRef_eq_some.mpr ⟨hname, hne⟩] at hs
    refine { h with refs := hrefs, defines := hdefines, closes := ?_, effective := fun s hne => ?_ }
    · simpa [closeName, hs] using h.closes
    · have hnone : (Message.closeStatement name : Message WireStr D B).touch unnamed (.text s) true =
          none := if_neg (htouch s hne)
      rw [lastWord_append, hnone]
      exact h.effective s hne
  | some s =>
    obtain ⟨rfl, hne⟩ := stmtRef_eq_some.mp hs
    simp only [filterMap_cons, closeName, hs] at hsub
    have hcloses : rememberBatchName L t.closes s =
        ((done ++ [Message.closeStatement (WireStr.text s)]).filterMap closeName).foldl Lists.addNew [] := by
      rw [h.closes, remember_eq (fun x hx => hsub (mem_append_left _ hx)) (hsub (by simp)) hall]
      simp [closeName, hs]
    have hleft : rememberBatchName L t.leftClosed s = Lists.addNew t.leftClosed s := by
      refine Lists.addNewUpTo_eq _ h.leftNodup (fun x hx => hsub ?_) (hsub (by simp)) hall
      have := h.leftClosed hx
      rw [h.closes] at this
      exact mem_append_left _ (by simpa using this)
    simp only [elim_some]
    refine { h with
      refs := hrefs, defines := hdefines, closes := hcloses, leftNodup := ?_, leftClosed := ?_,
      effective := fun x hx => ?_ }
    · rw [hleft]
      exact Lists.nodup_addNew h.leftNodup s
    · intro x hx
      rw [hleft, Lists.mem_addNew] at hx
      rw [hcloses, filterMap_append, foldl_append, ← h.closes]
      simp only [filterMap_cons, closeName, hs, filterMap_nil, foldl_cons,
        foldl_nil, Lists.mem_addNew]
      exact hx.imp_left (h.leftClosed ·)
    · rw [lastWord_append, hleft]
      by_cases hxs : x = s
      · simp [hxs, Message.touch]
      · have := h.effective x hx
        simp only [Lists.mem_addNew, hxs]
        simp [this, Message.touch, Ne.symm hxs]

variable {messages : List (Message WireStr D B)}

theorem Spec.note (h : Spec L r done t) (hnote : t.note L m = some t')
    (hfit : NamesFit L messages)
    (hsub : (done ++ [m]) ⊆ messages) : Spec L r (done ++ [m]) t' := by
  have hrefs := filterMap_subset refName hsub
  cases m with
  | parse name d => exact h.parse hnote
  | bind _ name _ | describe name | execute _ | describePortal _ | closePortal _ =>
    cases hnote
    exact h.ref rfl rfl (fun _ => rfl) hrefs hfit.refs
  | closeStatement name =>
    cases hnote
    exact h.close (filterMap_subset closeName hsub) hfit.closes

theorem noteAll_spec (hfit : NamesFit L messages)
    (hsize : r.stmts.keys.length ≤ L.maxPreparedStatements)
    (hnote : noteAll L r messages = some t) : Spec L r messages t := by
  suffices hrun : ∀ (rest done : List (Message WireStr D B)) (t₀ : BatchNames D),
      Spec L r done t₀ → done ++ rest = messages → rest.foldlM (BatchNames.note L) t₀ = some t →
        Spec L r messages t from
    hrun messages [] _ (.start hsize) rfl hnote
  intro rest
  induction rest with
  | nil =>
    rintro done t₀ hspec rfl hfold
    cases hfold
    simpa using hspec
  | cons m rest ih =>
    intro done t₀ hspec hall hfold
    obtain ⟨t₁, hnote, hfold⟩ := bind_eq_some_iff.mp hfold
    have hsplit : (done ++ [m]) ++ rest = messages := by simpa using hall
    refine ih (done ++ [m]) t₁ (hspec.note hnote hfit ?_) hsplit hfold
    exact hsplit ▸ subset_append_left _ _

/-- After the batch the registry has what the last `Parse` or `Close` said. -/
theorem Spec.registryAfter (h : Spec L r done t) (hs : s ≠ []) :
    (t.registryAfter L).stmts.lookup s = (lastWord (.text s) done).getD (r.stmts.lookup s) := by
  rw [← h.effective s hs, BatchNames.registryAfter]
  generalize t.registry = reg
  induction t.leftClosed generalizing reg with
  | nil => simp
  | cons x rest ih =>
    rw [foldl_cons, ih]
    by_cases hx : s = x
    · subst hx
      simp [Registry.remove]
    · simp [hx, Registry.remove]

theorem size_registryAfter (L : Limits D) (t : BatchNames D) :
    (t.registryAfter L).stmts.keys.length ≤ t.registry.stmts.keys.length := by
  rw [BatchNames.registryAfter]
  generalize t.registry = reg
  induction t.leftClosed generalizing reg with
  | nil => exact le_rfl
  | cons x rest ih =>
    refine (ih _).trans (((AList.keys_nodup _).subperm fun s hs => ?_).length_le)
    exact AList.mem_keys.mp (AList.mem_erase.mp (AList.mem_keys.mpr hs)).2

end BatchNames

/-! ## Connections -/

/-- A backend connection: what its backend holds, and the names the proxy takes for
prepared or for stale there. -/
structure NamedConn (D : Type) where
  backend : Backend WireStr D
  prepared : Finset Str
  stale : Finset Str

namespace NamedConn

def fresh : NamedConn D := ⟨.empty, ∅, ∅⟩

def closeOne (c : NamedConn D) (name : Str) : NamedConn D :=
  if name ∈ c.stale then
    { c with
      stale := c.stale.erase name
      backend :=
        { c.backend with statements := update c.backend.statements (.text name) none } }
  else c

def closeStale (c : NamedConn D) (names : List Str) : NamedConn D := names.foldl closeOne c

/-- A registered name that the connection lacks is prepared out of band.  When the
backend rejects that, the connection is dropped and the session over. -/
def prepareOne (registry : Registry D) (c : NamedConn D) (name : Str) : Option (NamedConn D) :=
  if name ∈ c.prepared then some c
  else
    match registry.stmts.lookup name with
    | none => some c
    | some d =>
      (c.backend.accept unnamed (.parse (.text name) d : Message WireStr D Unit)).map fun b =>
        { c with backend := b, prepared := insert name c.prepared }

def reprepareAll (registry : Registry D) (c : NamedConn D) (names : List Str) :
    Option (NamedConn D) :=
  names.foldlM (prepareOne registry) c

end NamedConn

variable {A : Type}

def noteStatementCloses [DecidableEq A] (conns : A → NamedConn D) (target : A)
    (closes leftClosed : List Str) : A → NamedConn D :=
  if closes.isEmpty then conns
  else fun a =>
    let c := conns a
    if a = target then { c with prepared := c.prepared \ leftClosed.toFinset }
    else
      { c with
        prepared := c.prepared \ closes.toFinset
        stale := c.stale ∪ (c.prepared ∩ closes.toFinset) }

/-! ## The session -/

/-- A named statement that a `Bind` used, with the definition it used and the one
the session was told last. -/
structure BindUse (D : Type) where
  name : WireStr
  used : D
  told : Option D

def BindUse.Right (u : BindUse D) : Prop := u.told = some u.used

/-- The backend while it serves a batch, with what it tells the session. -/
structure Served (D : Type) where
  backend : Backend WireStr D
  told : WireStr → Option D
  binds : List (BindUse D)

namespace Served

def uses (x : Served D) : Message WireStr D B → List (BindUse D)
  | .bind _ name _ =>
    if name = unnamed then []
    else ((x.backend.statements name).map fun d => ⟨name, d, x.told name⟩).toList
  | _ => []

def accept (x : Served D) (m : Message WireStr D B) : Option (Served D) :=
  (x.backend.accept unnamed m).map fun b =>
    ⟨b, fun n => (m.touch unnamed n true).getD (x.told n), x.binds ++ x.uses m⟩

def run (x : Served D) : List (Message WireStr D B) → List Bool → Option (Served D)
  | [], _ => some x
  | _ :: _, [] => none
  | m :: ms, true :: as => (x.accept m).bind fun y => y.run ms as
  | m :: _, false :: _ => (x.backend.reject unnamed m).map fun b => { x with backend := b }

end Served

def accepted (messages : List (Message WireStr D B)) (answers : List Bool) :
    List (Message WireStr D B) :=
  ((messages.zip answers).takeWhile (·.2)).map (·.1)

structure NamedSession (A D : Type) where
  registry : Registry D
  conns : A → NamedConn D
  told : WireStr → Option D
  binds : List (BindUse D)

def NamedSession.start : NamedSession A D := ⟨⟨∅, 0⟩, fun _ => .fresh, fun _ => none, []⟩

/-- A batch that a connection serves up to its `Sync`, one that is refused before it
reaches any, and the loss of a connection. -/
inductive SessionEvent (A D B : Type)
  | batch (target : A) (messages : List (Message WireStr D B)) (answers : List Bool)
  | refused (messages : List (Message WireStr D B))
  | dropped (addr : A)

/-- One event; `none` when the session ends with it, or the answers are none that a
backend can give. -/
def NamedSession.step [DecidableEq A] (L : Limits D) (x : NamedSession A D) :
    SessionEvent A D B → Option (NamedSession A D)
  | .batch target messages answers => do
    let t ← BatchNames.noteAll L x.registry messages
    let c ← ((x.conns target).closeStale (t.reprepare ++ t.defines)).reprepareAll t.registry
      t.reprepare
    let y ← Served.run ⟨c.backend, x.told, x.binds⟩ messages answers
    -- the batch's names count as prepared whatever the backend answered
    let c := { c with backend := y.backend, prepared := c.prepared ∪ t.defines.toFinset }
    return {
      registry := t.registryAfter L
      conns := noteStatementCloses (update x.conns target c) target t.closes t.leftClosed
      told := y.told
      binds := y.binds }
  | .refused messages =>
    (BatchNames.noteAll L x.registry messages).map fun t => { x with registry := t.registry }
  | .dropped addr => some { x with conns := update x.conns addr .fresh }

/-- Every `Bind` of a named statement used what the session was told last. -/
def BindsRight (x : NamedSession A D) : Prop := ∀ u ∈ x.binds, u.Right

/-! ## When the registry and the connections agree with the session -/

def stmtOf : Message WireStr D B → Option WireStr
  | .parse name _ | .bind _ name _ | .describe name | .closeStatement name => some name
  | .execute _ | .describePortal _ | .closePortal _ => none

def namedParse : Message WireStr D B → Option (Str × D)
  | .parse name d => (stmtRef name).map (·, d)
  | _ => none

def toldAfter (told : WireStr → Option D) (messages : List (Message WireStr D B))
    (answers : List Bool) (name : WireStr) : Option D :=
  (lastWord name (accepted messages answers)).getD (told name)

@[mk_iff]
structure BatchInStep (L : Limits D) (x : NamedSession A D) (target : A)
    (messages : List (Message WireStr D B)) (answers : List Bool) : Prop where
  fit : NamesFit L messages
  utf8 : ∀ m ∈ messages, ∀ name ∈ stmtOf m, name.utf8?.isSome
  /-- The last `Parse` or `Close` of a name says what the session is told in the end. -/
  lastHolds : ∀ m ∈ messages, ∀ s ∈ (defName m).or (closeName m),
    lastWord (.text s) messages = some (toldAfter x.told messages answers (.text s))
  /-- A name is not defined over another definition on another connection. -/
  elsewhere : ∀ m ∈ messages, ∀ s ∈ defName m, s ∉ messages.filterMap closeName →
    ∀ a, a ≠ target → s ∈ (x.conns a).prepared → ∀ d ∈ (x.conns a).backend.statements (.text s),
      toldAfter x.told messages answers (.text s) = some d

def NamedSession.InStep (L : Limits D) (x : NamedSession A D) : SessionEvent A D B → Prop
  | .batch target messages answers => BatchInStep L x target messages answers
  -- the registry keeps a refused `Parse`: it must be what the session has already
  | .refused messages => ∀ m ∈ messages, ∀ p ∈ namedParse m, x.told (.text p.1) = some p.2
  | .dropped _ => True

instance (L : Limits D) (messages : List (Message WireStr D B)) : Decidable (NamesFit L messages) :=
  decidable_of_iff' _ (namesFit_iff L messages)

instance [DecidableEq D] [DecidableEq A] [Fintype A] (L : Limits D) (x : NamedSession A D)
    (e : SessionEvent A D B) : Decidable (x.InStep L e) := by
  cases e with
  | batch target messages answers => exact decidable_of_iff' _ (batchInStep_iff L x target messages answers)
  | refused messages | dropped a =>
    unfold NamedSession.InStep
    infer_instance

def NamedConn.Follows (told : WireStr → Option D) (c : NamedConn D) : Prop :=
  ∀ n d, n ≠ unnamed → c.backend.statements n = some d →
    ∃ s, n = .text s ∧ (s ∈ c.prepared ∧ told n = some d ∨ s ∈ c.stale)

structure NamedSession.Inv (L : Limits D) (x : NamedSession A D) : Prop where
  size : x.registry.stmts.keys.length ≤ L.maxPreparedStatements
  registry : ∀ s : Str, s ≠ [] → x.registry.stmts.lookup s = x.told (.text s)
  conns : ∀ a, (x.conns a).Follows x.told
  binds : BindsRight x

namespace NamedConn

variable {told : WireStr → Option D} {c c' : NamedConn D}

theorem follows_fresh : (fresh : NamedConn D).Follows told := fun _ _ _ h => nomatch h

theorem Follows.closeOne (h : c.Follows told) (name : Str) : (c.closeOne name).Follows told := by
  rw [NamedConn.closeOne]
  split
  · intro n d hn hd
    by_cases hname : n = .text name
    · simp [hname] at hd
    · simp only [ne_eq, hname, not_false_eq_true, update_of_ne] at hd
      obtain ⟨s, rfl, hs⟩ := h n d hn hd
      refine ⟨s, rfl, hs.imp_right fun hstale => Finset.mem_erase.mpr ⟨?_, hstale⟩⟩
      rintro rfl
      exact hname rfl
  · exact h

variable {name : Str}

theorem mem_stale_closeOne :
    s ∈ (c.closeOne name).stale ↔ s ∈ c.stale ∧ s ≠ name := by
  rw [NamedConn.closeOne]
  split
  · rw [Finset.mem_erase, and_comm]
  · rename_i hname
    exact ⟨fun hs => ⟨hs, fun h => hname (h ▸ hs)⟩, And.left⟩

theorem Follows.closeStale (h : c.Follows told) (names : List Str) :
    (c.closeStale names).Follows told ∧ ∀ s ∈ names, s ∉ (c.closeStale names).stale := by
  have hmem : ∀ (names : List Str) (c : NamedConn D) (s : Str),
      s ∈ (names.foldl NamedConn.closeOne c).stale → s ∈ c.stale ∧ s ∉ names := by
    intro names
    induction names with
    | nil => simp
    | cons name names ih =>
      intro c s hs
      obtain ⟨hs, hnames⟩ := ih _ s hs
      obtain ⟨hs, hname⟩ := mem_stale_closeOne.mp hs
      exact ⟨hs, by simp [hname, hnames]⟩
  refine ⟨?_, fun s hs hstale => (hmem names c s hstale).2 hs⟩
  exact List.foldlRecOn names _ h fun c hc name _ => hc.closeOne name

variable {registry : Registry D}

theorem Follows.prepareOne (h : c.Follows told)
    (htold : registry.stmts.lookup name = told (.text name))
    (hprepare : c.prepareOne registry name = some c') :
    c'.Follows told ∧ c'.stale = c.stale := by
  rw [NamedConn.prepareOne] at hprepare
  split at hprepare
  · cases hprepare
    exact ⟨h, rfl⟩
  · split at hprepare
    · cases hprepare
      exact ⟨h, rfl⟩
    · rename_i d hlookup
      obtain ⟨b, haccept, rfl⟩ := map_eq_some_iff.mp hprepare
      refine ⟨fun n d' hn hd => ?_, rfl⟩
      rw [Backend.accept_statements unnamed haccept] at hd
      by_cases hname : n = .text name
      · simp only [Message.touch, hname, if_true, getD_some, Option.some.injEq] at hd
        subst hd hname
        exact ⟨name, rfl, .inl ⟨Finset.mem_insert_self .., htold ▸ hlookup⟩⟩
      · simp only [Message.touch, Ne.symm hname] at hd
        obtain ⟨s, rfl, hs⟩ := h n d' hn hd
        exact ⟨s, rfl, hs.imp_left fun hs => ⟨Finset.mem_insert_of_mem hs.1, hs.2⟩⟩

theorem Follows.reprepareAll {names : List Str} (h : c.Follows told)
    (htold : ∀ s ∈ names, registry.stmts.lookup s = told (.text s))
    (hprepare : c.reprepareAll registry names = some c') :
    c'.Follows told ∧ c'.stale = c.stale := by
  rw [NamedConn.reprepareAll] at hprepare
  induction names generalizing c with
  | nil =>
    cases hprepare
    exact ⟨h, rfl⟩
  | cons name names ih =>
    obtain ⟨c₁, hone, hrest⟩ := bind_eq_some_iff.mp hprepare
    obtain ⟨hfollows, hstale⟩ := h.prepareOne (htold name mem_cons_self) hone
    obtain ⟨hfollows', hstale'⟩ := ih hfollows (fun s hs => htold s (mem_cons_of_mem _ hs)) hrest
    exact ⟨hfollows', hstale'.trans hstale⟩

end NamedConn

theorem lastWord_cons (name : WireStr) (m : Message WireStr D B) (ms : List (Message WireStr D B)) :
    lastWord name (m :: ms) = (lastWord name ms).or (m.touch unnamed name true) := by
  rw [lastWord, reverse_cons, findSome?_append, ← lastWord]
  cases h : m.touch unnamed name true <;> simp [h]

variable {ms : List (Message WireStr D B)}

theorem lastWord_eq_none :
    lastWord name ms = none ↔ ∀ m ∈ ms, m.touch unnamed name true = none := by
  simp [lastWord]

theorem exists_of_lastWord {w : Option D}
    (h : lastWord name ms = some w) :
    (∃ d, w = some d ∧ .parse name d ∈ ms) ∨ (w = none ∧ .closeStatement name ∈ ms) := by
  obtain ⟨m, hm, htouch⟩ := exists_of_findSome?_eq_some h
  rw [mem_reverse] at hm
  cases m with
  | parse n d =>
    simp only [Message.touch] at htouch
    split at htouch
    · rename_i hn
      subst hn
      cases htouch
      exact .inl ⟨d, rfl, hm⟩
    · cases htouch
  | closeStatement n =>
    simp only [Message.touch] at htouch
    split at htouch
    · rename_i hn
      subst hn
      cases htouch
      exact .inr ⟨rfl, hm⟩
    · cases htouch
  | bind _ _ _ | execute _ | describe _ | describePortal _ | closePortal _ => cases htouch

theorem accepted_subset (messages : List (Message WireStr D B)) (answers : List Bool) :
    accepted messages answers ⊆ messages := by
  intro m hm
  obtain ⟨⟨m', b⟩, hmem, rfl⟩ := List.mem_map.mp hm
  exact (of_mem_zip ((takeWhile_subset _) hmem)).1

namespace Served

variable {x y : Served D} {m : Message WireStr D B} {ms : List (Message WireStr D B)}
  {as : List Bool}

theorem run_statements (h : x.run ms as = some y) (n : WireStr) :
    y.told n = (lastWord n (accepted ms as)).getD (x.told n) ∧
      (n ≠ unnamed →
        y.backend.statements n = (lastWord n (accepted ms as)).getD (x.backend.statements n)) := by
  induction ms generalizing x as with
  | nil =>
    cases h
    simp [accepted, lastWord]
  | cons m ms ih =>
    cases as with
    | nil => cases h
    | cons a as =>
    cases a with
    | true =>
      obtain ⟨z, haccept, h⟩ := bind_eq_some_iff.mp h
      obtain ⟨b, hb, rfl⟩ := map_eq_some_iff.mp haccept
      obtain ⟨htold, hheld⟩ := ih h
      have hcons : accepted (m :: ms) (true :: as) = m :: accepted ms as := by simp [accepted]
      rw [hcons, lastWord_cons]
      refine ⟨?_, fun hn => ?_⟩
      · rw [htold]
        cases lastWord n (accepted ms as) <;> rfl
      · rw [hheld hn, Backend.accept_statements unnamed hb]
        cases lastWord n (accepted ms as) <;> rfl
    | false =>
      obtain ⟨b, hb, rfl⟩ := map_eq_some_iff.mp h
      have hnil : accepted (m :: ms) (false :: as) = [] := by simp [accepted]
      rw [hnil]
      refine ⟨rfl, fun hn => ?_⟩
      rw [Backend.reject_statements unnamed hb]
      cases m <;> simp [Message.touch, lastWord, hn]

def Sync (x : Served D) (n : WireStr) : Prop :=
  ∀ d, x.backend.statements n = some d → x.told n = some d

theorem Sync.accept {n : WireStr} (h : x.Sync n) (haccept : x.accept m = some y) : y.Sync n := by
  obtain ⟨b, hb, rfl⟩ := map_eq_some_iff.mp haccept
  intro d hd
  change (m.touch unnamed n true).getD (x.told n) = some d
  rw [Backend.accept_statements unnamed hb] at hd
  cases htouch : m.touch unnamed n true with
  | none =>
    rw [htouch] at hd
    exact h d hd
  | some w =>
    rw [htouch] at hd
    exact hd

theorem uses_right (hsync : ∀ portal n v, m = .bind portal n v → n ≠ unnamed → x.Sync n) :
    ∀ u ∈ x.uses m, u.Right := by
  cases m with
  | bind portal name v =>
    intro u hu
    simp only [uses] at hu
    split at hu
    · cases hu
    · rename_i hn
      obtain ⟨d, hd, rfl⟩ := map_eq_some_iff.mp (mem_toList.mp hu)
      exact hsync portal name v rfl hn d hd
  | parse _ _ | execute _ | describe _ | describePortal _ | closeStatement _ | closePortal _ =>
    intro u hu
    cases hu

theorem run_binds (h : x.run ms as = some y) (hright : ∀ u ∈ x.binds, u.Right)
    (hsync : ∀ portal n v, .bind portal n v ∈ ms → n ≠ unnamed → x.Sync n) :
    ∀ u ∈ y.binds, u.Right := by
  induction ms generalizing x as with
  | nil =>
    cases h
    exact hright
  | cons m ms ih =>
    match as, h with
    | true :: as, h =>
      obtain ⟨z, haccept, h⟩ := bind_eq_some_iff.mp h
      refine ih h ?_ fun portal n v hm hn => ?_
      · obtain ⟨b, hb, rfl⟩ := map_eq_some_iff.mp haccept
        intro u hu
        rcases mem_append.mp hu with hu | hu
        · exact hright u hu
        · exact uses_right (fun portal n v hm => hsync portal n v (hm ▸ mem_cons_self)) u hu
      · exact (hsync portal n v (mem_cons_of_mem _ hm) hn).accept haccept
    | false :: as, h =>
      obtain ⟨b, hb, rfl⟩ := map_eq_some_iff.mp h
      exact hright

end Served

theorem noteStatementCloses_apply [DecidableEq A] (conns : A → NamedConn D) (target : A)
    {closes left : List Str} (hsub : left ⊆ closes) (a : A) :
    noteStatementCloses conns target closes left a =
      if a = target then { conns a with prepared := (conns a).prepared \ left.toFinset }
      else
        { conns a with
          prepared := (conns a).prepared \ closes.toFinset
          stale := (conns a).stale ∪ ((conns a).prepared ∩ closes.toFinset) } := by
  rw [noteStatementCloses]
  split
  · rename_i hempty
    obtain rfl := List.isEmpty_iff.mp hempty
    obtain rfl := subset_nil.mp hsub
    by_cases ha : a = target
    · simp [ha]
    · simp only [ha, if_false, toFinset_nil, Finset.sdiff_empty, Finset.inter_empty,
        Finset.union_empty]
  · rfl

section batch

variable {L : Limits D} {x : NamedSession A D} {target : A}
  {messages : List (Message WireStr D B)} {answers : List Bool} {t : BatchNames D}
  {c : NamedConn D} {y : Served D}

theorem BatchInStep.text (hin : BatchInStep L x target messages answers)
    {m : Message WireStr D B} (hm : m ∈ messages) {name : WireStr} (hname : stmtOf m = some name)
    (hne : name ≠ unnamed) : ∃ s, name = .text s ∧ stmtRef name = some s := by
  obtain ⟨s, rfl⟩ := utf8?_isSome (hin.utf8 m hm name hname)
  refine ⟨s, rfl, stmtRef_eq_some.mpr ⟨rfl, ?_⟩⟩
  rintro rfl
  exact hne rfl

theorem BatchInStep.told_leftClosed (hin : BatchInStep L x target messages answers)
    (hspec : t.Spec L x.registry messages) (hs : s ∈ t.leftClosed) :
    toldAfter x.told messages answers (.text s) = none := by
  have hclosed := hspec.leftClosed hs
  rw [hspec.closes, Lists.mem_foldl_addNew] at hclosed
  obtain ⟨m, hm, hclose⟩ := mem_filterMap.mp (hclosed.resolve_left not_mem_nil)
  have hne : s ≠ [] := by
    cases m <;> simp only [closeName, stmtRef_eq_some, reduceCtorEq] at hclose
    exact hclose.2
  have hlast := hin.lastHolds m hm s (by cases m <;> simp_all [defName, closeName])
  have heff := hspec.effective s hne
  rw [if_pos hs, hlast] at heff
  exact heff.symm

theorem NamedSession.Inv.readied (hinv : x.Inv L) (hspec : t.Spec L x.registry messages)
    (hc : ((x.conns target).closeStale (t.reprepare ++ t.defines)).reprepareAll t.registry
      t.reprepare = some c) :
    c.Follows x.told ∧ ∀ s ∈ t.reprepare ++ t.defines, s ∉ c.stale := by
  obtain ⟨hfollows, hstale⟩ := (hinv.conns target).closeStale (t.reprepare ++ t.defines)
  have hknown : ∀ s ∈ t.reprepare, t.registry.stmts.lookup s = x.told (.text s) := by
    intro s hs
    simp only [BatchNames.reprepare, mem_filter, decide_eq_true_eq] at hs
    obtain ⟨hrefs, hdefines⟩ := hs
    rw [hspec.refs, Lists.mem_foldl_addNew] at hrefs
    obtain ⟨m, -, href⟩ := mem_filterMap.mp (hrefs.resolve_left not_mem_nil)
    rw [hspec.kept s hdefines]
    refine hinv.registry s ?_
    cases m <;> simp only [refName, stmtRef_eq_some, reduceCtorEq] at href
    · exact href.2
    · exact href.2
  obtain ⟨hfollows', hsame⟩ := hfollows.reprepareAll hknown hc
  exact ⟨hfollows', fun s hs => hsame ▸ hstale s hs⟩

section

variable (hin : BatchInStep L x target messages answers)
include hin

/-- What a `Bind` of the batch refers to is in step when the batch starts. -/
theorem BatchInStep.sync (hspec : t.Spec L x.registry messages) (hfollows : c.Follows x.told)
    (hstale : ∀ s ∈ t.reprepare ++ t.defines, s ∉ c.stale) {portal n : WireStr} {v : B}
    (hm : .bind portal n v ∈ messages) (hn : n ≠ unnamed) :
    Served.Sync ⟨c.backend, x.told, x.binds⟩ n := by
  intro d hd
  obtain ⟨s, rfl, href⟩ := hin.text hm rfl hn
  have hrefs : s ∈ t.refs := by
    rw [hspec.refs, Lists.mem_foldl_addNew]
    exact .inr (mem_filterMap.mpr ⟨_, hm, href⟩)
  have hready : s ∈ t.reprepare ++ t.defines := by
    by_cases hdef : s ∈ t.defines
    · exact mem_append_right _ hdef
    · exact mem_append_left _ (mem_filter.mpr ⟨hrefs, by simpa using hdef⟩)
  obtain ⟨s', hs', hs⟩ := hfollows _ d hn hd
  cases hs'
  exact (hs.resolve_right (hstale s hready)).2

theorem BatchInStep.follows_target
    (hspec : t.Spec L x.registry messages) (hfollows : c.Follows x.told)
    (hy : Served.run ⟨c.backend, x.told, x.binds⟩ messages answers = some y) :
    NamedConn.Follows y.told
      { c with
        backend := y.backend
        prepared := (c.prepared ∪ t.defines.toFinset) \ t.leftClosed.toFinset } := by
  intro n d hn hd
  obtain ⟨htold, hheld⟩ := Served.run_statements hy n
  rw [hheld hn] at hd
  have hleft : ∀ s, n = .text s → y.told n = some d → s ∉ t.leftClosed := by
    rintro s rfl htold' hs
    rw [htold, ← toldAfter, hin.told_leftClosed hspec hs] at htold'
    cases htold'
  cases hw : lastWord n (accepted messages answers) with
  | none =>
    rw [hw] at hd htold
    obtain ⟨s, rfl, hs⟩ := hfollows n d hn hd
    refine ⟨s, rfl, hs.imp_left fun hs => ?_⟩
    have htold' : y.told (.text s) = some d := htold.trans hs.2
    simp [hs.1, hleft s rfl htold', htold']
  | some w =>
    rw [hw] at hd htold
    obtain rfl : w = some d := hd
    obtain ⟨d', hd', hparse⟩ | ⟨hnone, -⟩ := exists_of_lastWord hw
    · cases hd'
      have hm := accepted_subset _ _ hparse
      obtain ⟨s, rfl, href⟩ := hin.text hm rfl hn
      have hdef : s ∈ t.defines := by
        rw [hspec.defines, Lists.mem_foldl_addNew]
        exact .inr (mem_filterMap.mpr ⟨_, hm, href⟩)
      refine ⟨s, rfl, .inl ⟨?_, htold⟩⟩
      simp [hdef, hleft s rfl htold]
    · cases hnone

theorem BatchInStep.follows_other (hspec : t.Spec L x.registry messages) {a : A} (ha : a ≠ target)
    (hfollows : (x.conns a).Follows x.told)
    (htold : ∀ n, y.told n = toldAfter x.told messages answers n) :
    NamedConn.Follows y.told
      { x.conns a with
        prepared := (x.conns a).prepared \ t.closes.toFinset
        stale := (x.conns a).stale ∪ ((x.conns a).prepared ∩ t.closes.toFinset) } := by
  intro n d hn hd
  obtain ⟨s, rfl, ⟨hprepared, hs⟩ | hs⟩ := hfollows n d hn hd
  · refine ⟨s, rfl, ?_⟩
    by_cases hclosed : s ∈ t.closes
    · exact .inr (by simp [hprepared, hclosed])
    · refine .inl ⟨by simp [hprepared, hclosed], ?_⟩
      rw [hspec.closes, Lists.mem_foldl_addNew, not_or] at hclosed
      rw [htold]
      cases hw : lastWord (.text s) (accepted messages answers) with
      | none => rwa [toldAfter, hw]
      | some w =>
        have hne : s ≠ [] := fun h => hn (h ▸ rfl)
        obtain ⟨d', -, hparse⟩ | ⟨-, hclose⟩ := exists_of_lastWord hw
        · exact hin.elsewhere _ (accepted_subset _ _ hparse) s (stmtRef_eq_some.mpr ⟨rfl, hne⟩)
            hclosed.2 a ha hprepared d hd
        · exact absurd (mem_filterMap.mpr
            ⟨_, accepted_subset _ _ hclose, stmtRef_eq_some.mpr ⟨rfl, hne⟩⟩) hclosed.2
  · exact ⟨s, rfl, .inr (by simp [hs])⟩

theorem BatchInStep.registry (hinv : x.Inv L) (hspec : t.Spec L x.registry messages) (hs : s ≠ []) :
    (t.registryAfter L).stmts.lookup s = toldAfter x.told messages answers (.text s) := by
  rw [hspec.registryAfter hs]
  cases hw : lastWord (.text s) messages with
  | none =>
    have hnone : lastWord (.text s) (accepted messages answers) = none :=
      lastWord_eq_none.mpr fun m hm => lastWord_eq_none.mp hw m (accepted_subset _ _ hm)
    rw [toldAfter, hnone]
    exact hinv.registry s hs
  | some w =>
    have hname : stmtRef (.text s) = some s := stmtRef_eq_some.mpr ⟨rfl, hs⟩
    have hlast : lastWord (.text s) messages =
        some (toldAfter x.told messages answers (.text s)) := by
      obtain ⟨d, -, hm⟩ | ⟨-, hm⟩ := exists_of_lastWord hw
      · exact hin.lastHolds _ hm s (by simp [defName, hname])
      · exact hin.lastHolds _ hm s (by simp [defName, closeName, hname])
    rw [hw] at hlast
    exact Option.some.inj hlast

end

end batch

theorem BatchNames.registry_note {t t' : BatchNames D} {m : Message WireStr D B}
    (h : t.note L m = some t') :
    t'.registry = t.registry ∨
      ∃ s d, namedParse m = some (s, d) ∧ t.registry.define L s d = some t'.registry := by
  cases m with
  | parse name d =>
    simp only [BatchNames.note] at h
    cases hs : stmtRef name with
    | none =>
      rw [hs] at h
      cases h
      exact .inl rfl
    | some s =>
      rw [hs] at h
      obtain ⟨r, hr, rfl⟩ := map_eq_some_iff.mp h
      exact .inr ⟨s, d, by simp [namedParse, hs], hr⟩
  | bind _ _ _ | execute _ | describe _ | describePortal _ | closeStatement _ | closePortal _ =>
    cases h
    exact .inl rfl

/-- `Parse`s that repeat what the session has leave the registry as it is. -/
theorem BatchNames.registry_repeated {told : WireStr → Option D}
    {messages : List (Message WireStr D B)} {t t' : BatchNames D}
    (hsize : t.registry.stmts.keys.length ≤ L.maxPreparedStatements)
    (htold : ∀ s : Str, s ≠ [] → t.registry.stmts.lookup s = told (.text s))
    (hrepeat : ∀ m ∈ messages, ∀ p ∈ namedParse m, told (.text p.1) = some p.2)
    (hnote : messages.foldlM (BatchNames.note L) t = some t') :
    t'.registry.stmts.keys.length ≤ L.maxPreparedStatements ∧
      ∀ s : Str, s ≠ [] → t'.registry.stmts.lookup s = told (.text s) := by
  induction messages generalizing t with
  | nil =>
    cases hnote
    exact ⟨hsize, htold⟩
  | cons m messages ih =>
    obtain ⟨t₁, hfirst, hrest⟩ := bind_eq_some_iff.mp hnote
    have hrepeat' := fun m' hm' => hrepeat m' (mem_cons_of_mem m hm')
    rcases BatchNames.registry_note hfirst with hsame | ⟨s, d, hparse, hdefine⟩
    · exact ih (hsame ▸ hsize) (hsame ▸ htold) hrepeat' hrest
    · obtain ⟨hstmts, hsize'⟩ := Registry.define_eq_some hdefine hsize
      refine ih hsize' (fun x hx => ?_) hrepeat' hrest
      by_cases hxs : x = s
      · subst hxs
        rw [hstmts, AList.lookup_insert]
        exact (hrepeat m mem_cons_self _ hparse).symm
      · rw [hstmts, AList.lookup_insert_ne hxs]
        exact htold x hx

theorem NamedSession.inv_start : (start : NamedSession A D).Inv L where
  size := Nat.zero_le _
  registry _ _ := rfl
  conns _ := NamedConn.follows_fresh
  binds _ hu := nomatch hu

variable [DecidableEq A]

theorem NamedSession.Inv.step {x x' : NamedSession A D} {e : SessionEvent A D B}
    (hinv : x.Inv L) (hin : x.InStep L e) (hstep : x.step L e = some x') : x'.Inv L := by
  cases e with
  | batch target messages answers =>
    obtain ⟨t, ht, hstep⟩ := bind_eq_some_iff.mp hstep
    obtain ⟨c, hc, hstep⟩ := bind_eq_some_iff.mp hstep
    obtain ⟨y, hy, hstep⟩ := bind_eq_some_iff.mp hstep
    cases hstep
    have hspec := BatchNames.noteAll_spec hin.fit hinv.size ht
    obtain ⟨hfollows, hstale⟩ := hinv.readied hspec hc
    have htold : ∀ n, y.told n = toldAfter x.told messages answers n :=
      fun n => (Served.run_statements hy n).1
    refine ⟨(BatchNames.size_registryAfter L t).trans hspec.size, fun s hs => ?_, fun a => ?_, ?_⟩
    · exact (hin.registry hinv hspec hs).trans (htold _).symm
    · change NamedConn.Follows y.told (noteStatementCloses _ _ _ _ a)
      rw [noteStatementCloses_apply _ _ hspec.leftClosed]
      by_cases ha : a = target
      · subst ha
        simpa using hin.follows_target hspec hfollows hy
      · simpa [ha] using hin.follows_other hspec ha (hinv.conns a) htold
    · exact Served.run_binds hy hinv.binds fun portal n v => hin.sync hspec hfollows hstale
  | refused messages =>
    obtain ⟨t, ht, rfl⟩ := map_eq_some_iff.mp hstep
    obtain ⟨hsize, hregistry⟩ :=
      BatchNames.registry_repeated hinv.size hinv.registry hin ht
    exact ⟨hsize, hregistry, hinv.conns, hinv.binds⟩
  | dropped addr =>
    cases hstep
    refine ⟨hinv.size, hinv.registry, fun a => ?_, hinv.binds⟩
    by_cases ha : a = addr
    · subst ha
      simpa using NamedConn.follows_fresh
    · simpa [ha] using hinv.conns a

/-- In a run whose batches keep the registry and the connections in step with the
session, every `Bind` of a named statement uses what the session was told last. -/
theorem binds_follow (L : Limits D) (events : List (SessionEvent A D B)) (x : NamedSession A D)
    (hran : Runs.run (NamedSession.step L) .start events = some x)
    (halong : Runs.Along (NamedSession.step L) (NamedSession.InStep L) .start events) :
    BindsRight x := by
  have hinv : x.Inv L := Runs.run_invariant_along
    (fun _ _ _ hinv hin hstep => hinv.step hin hstep) NamedSession.inv_start halong hran
  exact hinv.binds

/-- Limits, statements and a batch that runs `s`, for the runs below. -/
def roomy : Limits Str := ⟨1000, 1048576, fun name d => name.length + d.length + 9⟩

def nameS : WireStr := .text "s"

def runS : List (Message WireStr Str Unit) := [.bind unnamed nameS (), .execute unnamed]

/-- Defined on one backend, used on the other, closed there, and defined anew. -/
theorem binds_follow_moved :
    let events : List (SessionEvent Bool Str Unit) :=
      [.batch true [.parse nameS "SELECT 1"] [true], .batch false runS [true, true],
        .batch false [.closeStatement nameS] [true],
        .batch true (.parse nameS "SELECT 2" :: runS) [true, true, true],
        .batch false runS [true, true]]
    ∃ x, Runs.run (NamedSession.step roomy) .start events = some x ∧
      x.binds.map (·.used) = ["SELECT 1".toList, "SELECT 2".toList, "SELECT 2".toList] ∧
      BindsRight x := by
  intro events
  refine ⟨_, rfl, by decide, ?_⟩
  exact binds_follow roomy events _ rfl (by decide)

/-- A `Parse` over an existing name is rejected by the backend that has it, but a
second backend is given its text.  One that goes to the second backend is accepted,
and the first goes on with the old text. -/
theorem not_binds_follow :
    (∃ x, Runs.run (NamedSession.step (A := Bool) roomy) .start
        [.batch true [.parse nameS "SELECT 1".toList] [true],
          .batch true [.parse nameS "SELECT 2".toList] [false],
          .batch false runS [true, true]] = some x ∧ ¬ BindsRight x) ∧
    ∃ x, Runs.run (NamedSession.step (A := Bool) roomy) .start
        [.batch true [.parse nameS "SELECT 1".toList] [true],
          .batch false [.parse nameS "SELECT 2".toList] [true],
          .batch true runS [true, true]] = some x ∧ ¬ BindsRight x := by
  refine ⟨⟨_, rfl, fun h => ?_⟩, ⟨_, rfl, fun h => ?_⟩⟩
  · have hused : BindUse.Right ⟨nameS, "SELECT 2".toList, some "SELECT 1".toList⟩ :=
      h _ mem_cons_self
    exact absurd hused (by unfold BindUse.Right; decide)
  · have hused : BindUse.Right ⟨nameS, "SELECT 1".toList, some "SELECT 2".toList⟩ :=
      h _ mem_cons_self
    exact absurd hused (by unfold BindUse.Right; decide)

end HeliosProxy.Relay
