import ZksyncOsServer.MerkleTree.Backends

/-!
# Agreement of databases

Two lawful databases with the same history and the same stored versions answer
all requests about these versions alike, and stay that way. A difference can
only come from versions at or above the version count: RocksDB still serves a
truncated version until its number is used again.
-/
namespace MerkleTree

open Successor Fallible Contents Database LawfulDatabase

variable {H DB DB' : Type} {P : TreeParams} {hasher : HashTree H} {hist : List Contents} {v n : Nat}

/-! ### Requests -/

inductive Request where
  | extend (entries : List TreeEntry)
  | extendWithProof (entries : List TreeEntry) (readKeys : List B256)
  | truncate (retainedVersionCount : Nat)
  | latestVersion
  | rootHash (version : Nat)
  | rootInfo (version : Nat)
  | prove (version : Nat) (keys : List B256)
  deriving DecidableEq

inductive Response (H : Type) where
  | extended (output : TreeBatchOutput H)
  | extendedWithProof (output : TreeBatchOutput H) (proof : BatchTreeProof H)
  | truncated
  | latestVersion (version : Option Nat)
  | rootHash (hash : Option H)
  | rootInfo (info : Option (H × Nat))
  | proved (proof : Option (BatchTreeProof H × TreeBatchOutput H))

def Request.version? : Request → Option Nat
  | .rootHash version => some version
  | .rootInfo version => some version
  | .prove version _ => some version
  | _ => none

/-- The answer to a request and the database afterwards, which is the same if the
request fails. -/
def Request.serve [Database DB H] [Inhabited H] (P : TreeParams) (hasher : HashTree H) (db : DB) :
    Request → Except TreeError (Response H) × DB
  | .extend entries =>
    match MerkleTree.extend P hasher db entries with
    | .ok (db', output) => (.ok (.extended output), db')
    | .error e => (.error e, db)
  | .extendWithProof entries readKeys =>
    match MerkleTree.extendWithProof P hasher db entries readKeys with
    | .ok (db', output, proof) => (.ok (.extendedWithProof output proof), db')
    | .error e => (.error e, db)
  | .truncate retainedVersionCount =>
    match truncateRecentVersions db retainedVersionCount with
    | .ok db' => (.ok .truncated, db')
    | .error e => (.error e, db)
  | .latestVersion => (.latestVersion <$> MerkleTree.latestVersion db, db)
  | .rootHash version => (.rootHash <$> MerkleTree.rootHash P hasher db version, db)
  | .rootInfo version => (.rootInfo <$> MerkleTree.rootInfo P hasher db version, db)
  | .prove version keys => (.proved <$> MerkleTree.prove P hasher db version keys, db)

/-- The answers to a sequence of requests. -/
def responses [Database DB H] [Inhabited H] (P : TreeParams) (hasher : HashTree H) :
    DB → List Request → List (Except TreeError (Response H))
  | _, [] => []
  | db, request :: requests =>
    let (response, db) := request.serve P hasher db
    response :: responses P hasher db requests

/-! ### Agreement -/

/-- Truncation to the given number of versions succeeds. -/
def CanTruncate [Database DB H] (db : DB) (n : Nat) : Prop := ∃ db', truncateRecentVersions db n = .ok db'

inductive SameChange [Database DB H] [Database DB' H] (db : DB) (db' : DB') : DB → DB' → Prop
  | none : SameChange db db' db db'
  | patch {patch : PatchSet H} {db₁ : DB} {db₁' : DB'} : Database.applyPatch db patch = .ok db₁ →
      Database.applyPatch db' patch = .ok db₁' → SameChange db db' db₁ db₁'
  | truncate {n : Nat} {db₁ : DB} {db₁' : DB'} : truncateRecentVersions db n = .ok db₁ →
      truncateRecentVersions db' n = .ok db₁' → SameChange db db' db₁ db₁'

/-- Both databases store the history, in the same nodes. -/
structure Agree [Database DB H] [LawfulDatabase DB H] [Database DB' H] [LawfulDatabase DB' H] (P : TreeParams)
    (hasher : HashTree H) (db : DB) (db' : DB') (hist : List Contents) : Prop where
  left : LawfulDatabase.Stores P hasher db hist
  right : LawfulDatabase.Stores P hasher db' hist
  node : ∀ key, key.version < hist.length → 0 < key.nibbleCount →
    LawfulDatabase.node db' key = LawfulDatabase.node db key
  root : ∀ v, v < hist.length → Database.tryRoot db' v = Database.tryRoot db v

theorem SameVersion.createPatch_eq [Database DB H] [Database DB' H] {E : Type} [AsEntry E] {db : DB} {db' : DB'}
    (h : SameVersion P hasher db db' v) (entries : List E) (keys : List B256) :
    createPatch P db v entries keys = createPatch P db' v entries keys := by
  obtain ⟨nodes, c, root, hs, hs'⟩ := h.same
  exact createPatch_congr hs hs'

theorem LawfulDatabase.canTruncate [Database DB H] [LawfulDatabase DB H] {db : DB}
    (hs : LawfulDatabase.Stores P hasher db hist) (hn : n ≠ 0) : CanTruncate db n := by
  obtain ⟨h0, -⟩ | ⟨db', hok, -⟩ := truncate hs n
  · exact absurd h0 hn
  · exact ⟨db', hok⟩

namespace Agree

variable [Database DB H] [LawfulDatabase DB H] [Database DB' H] [LawfulDatabase DB' H] {db : DB} {db' : DB'}

section
variable (ha : Agree P hasher db db' hist)
include ha

theorem sameVersion (hv : v < hist.length) : SameVersion P hasher db db' v := by
  have hc : hist[v]? = some hist[v] := List.getElem?_eq_getElem hv
  obtain ⟨root, hs⟩ := (holds ha.left).serves v _ hc
  obtain ⟨root', hs'⟩ := (holds ha.right).serves v _ hc
  have hroot : root = root' := by
    have := hs.root.symm.trans ((ha.root v hv).symm.trans hs'.root)
    exact Option.some.inj (Except.ok.inj this)
  subst hroot
  exact hs.sameVersion hs' fun key hk hpos => ha.node key (by omega) hpos

theorem latestVersion_eq : latestVersion db = latestVersion db' := by
  rw [(holds ha.left).latest, (holds ha.right).latest]

theorem loadForUpdate_eq {E : Type} [AsEntry E] (entries : List E)
    (keys : List B256) : loadForUpdate P db entries keys = loadForUpdate P db' entries keys := by
  rw [loadForUpdate, loadForUpdate, (holds ha.left).latest, (holds ha.right).latest]
  by_cases h0 : hist.length = 0
  · simp only [if_pos h0, ok_bind]
  · simp only [if_neg h0, ok_bind]
    exact (ha.sameVersion (by omega)).createPatch_eq entries keys

theorem commitUpdate [Inhabited H] {E : Type} [AsEntry E] {entries : List E} {keys : List B256}
    {w : WorkingPatchSet H} {u : TreeUpdate} (hload : loadForUpdate P db entries keys = .ok (w, u)) :
    (∃ e, commitUpdate P hasher db w u = .error e ∧ commitUpdate P hasher db' w u = .error e) ∨
      ∃ db₁ db₁' output, commitUpdate P hasher db w u = .ok (db₁, output) ∧
        commitUpdate P hasher db' w u = .ok (db₁', output) ∧
        (∃ patch, applyPatch db patch = .ok db₁ ∧ applyPatch db' patch = .ok db₁') ∧
        Agree P hasher db₁ db₁' (hist ++ [nextContents hist (entries.map AsEntry.asEntry)]) := by
  rw [MerkleTree.commitUpdate, MerkleTree.commitUpdate]
  cases hupdate : WorkingPatchSet.update P w u with
  | error e => exact .inl ⟨e, rfl, rfl⟩
  | ok x =>
    obtain ⟨w', final⟩ := x
    simp only [ok_bind]
    cases hfinalize : WorkingPatchSet.finalize P hasher w' final with
    | error e => exact .inl ⟨e, rfl, rfl⟩
    | ok y =>
      obtain ⟨patch, output⟩ := y
      obtain ⟨I, J, hp⟩ := (holds ha.left).prepared hload
      obtain ⟨I', J', hp'⟩ := (holds ha.right).prepared ((ha.loadForUpdate_eq _ _).symm.trans hload)
      obtain ⟨-, part, hc⟩ := hp.committed hupdate hfinalize
      obtain ⟨-, part', hc'⟩ := hp'.committed hupdate hfinalize
      have hpart : part' = part := by
        have := congrArg (·[hist.length]?) (hc'.parts.symm.trans hc.parts)
        simpa using this
      subst hpart
      obtain ⟨db₁, happly, hs, hnew⟩ := applyPatch ha.left hc
      obtain ⟨db₁', happly', hs', hnew'⟩ := applyPatch ha.right hc'
      simp only [ok_bind, happly, happly']
      refine .inr ⟨db₁, db₁', output, rfl, rfl, ⟨patch, happly, happly'⟩, hs, hs', fun key hk hpos => ?_,
        fun v hv => ?_⟩
      · rw [List.length_append, List.length_singleton] at hk
        by_cases hkey : key.version = hist.length
        · rw [hnew.node key hkey hpos, hnew'.node key hkey hpos]
        · have hlt : key.version < hist.length := by omega
          rw [hnew.keeps.node key hlt, hnew'.keeps.node key hlt, ha.node key hlt hpos]
      · rw [List.length_append, List.length_singleton] at hv
        by_cases hkey : v = hist.length
        · rw [hkey, hnew.root, hnew'.root]
        · have hlt : v < hist.length := by omega
          rw [hnew.keeps.root v hlt, hnew'.keeps.root v hlt, ha.root v hlt]

theorem truncate {db₁ : DB} {db₁' : DB'}
    (h : truncateRecentVersions db n = .ok db₁) (h' : truncateRecentVersions db' n = .ok db₁') :
    Agree P hasher db₁ db₁' (hist.take n) := by
  obtain ⟨-, e, he⟩ | ⟨db₂, hok, hs, hkeeps⟩ := LawfulDatabase.truncate ha.left n
  · cases h.symm.trans he
  obtain ⟨-, e, he⟩ | ⟨db₂', hok', hs', hkeeps'⟩ := LawfulDatabase.truncate ha.right n
  · cases h'.symm.trans he
  cases h.symm.trans hok
  cases h'.symm.trans hok'
  refine ⟨hs, hs', fun key hk hpos => ?_, fun v hv => ?_⟩
  · rw [List.length_take] at hk
    rw [hkeeps.node key hk, hkeeps'.node key hk, ha.node key (by omega) hpos]
  · rw [List.length_take] at hv
    rw [hkeeps.root v hv, hkeeps'.root v hv, ha.root v (by omega)]

/-- Both databases answer a request alike and change in the same way, if they do
not have the version that is requested above the version count. -/
theorem serve [Inhabited H] (request : Request)
    (htruncate : ∀ n, request = .truncate n → CanTruncate db n ∧ CanTruncate db' n)
    (hread : ∀ v ∈ request.version?, hist.length ≤ v → tryRoot db v = .ok none ∧ tryRoot db' v = .ok none) :
    (request.serve P hasher db).1 = (request.serve P hasher db').1 ∧
      SameChange db db' (request.serve P hasher db).2 (request.serve P hasher db').2 ∧
      ∃ hist', Agree P hasher (request.serve P hasher db).2 (request.serve P hasher db').2 hist' := by
  have hread' : ∀ v ∈ request.version?, SameVersion P hasher db db' v ∨
      tryRoot db v = .ok none ∧ tryRoot db' v = .ok none := fun v hv =>
    (Nat.lt_or_ge v hist.length).imp ha.sameVersion (hread v hv)
  cases request with
  | extend entries =>
    simp only [Request.serve, extend, extendInner, ha.loadForUpdate_eq entries []]
    cases hload : loadForUpdate P db' entries [] with
    | error e => exact ⟨rfl, .none, hist, ha⟩
    | ok x =>
      obtain ⟨w, u⟩ := x
      obtain ⟨e, he, he'⟩ | ⟨db₁, db₁', output, hok, hok', ⟨patch, hp, hp'⟩, ha'⟩ :=
        ha.commitUpdate ((ha.loadForUpdate_eq entries []).trans hload)
      · simp only [ok_bind, he, he']
        exact ⟨trivial, .none, hist, ha⟩
      · simp only [ok_bind, hok, hok']
        exact ⟨trivial, .patch hp hp', _, ha'⟩
  | extendWithProof entries readKeys =>
    simp only [Request.serve, extendWithProof, ha.loadForUpdate_eq entries readKeys]
    cases hload : loadForUpdate P db' entries readKeys with
    | error e => exact ⟨rfl, .none, hist, ha⟩
    | ok x =>
      obtain ⟨w, u⟩ := x
      simp only [ok_bind]
      cases WorkingPatchSet.createBatchProof P hasher w u.operations u.readOperations with
      | error e => exact ⟨rfl, .none, hist, ha⟩
      | ok proof =>
        obtain ⟨e, he, he'⟩ | ⟨db₁, db₁', output, hok, hok', ⟨patch, hp, hp'⟩, ha'⟩ :=
          ha.commitUpdate ((ha.loadForUpdate_eq entries readKeys).trans hload)
        · simp only [ok_bind, he, he']
          exact ⟨rfl, .none, hist, ha⟩
        · simp only [ok_bind, hok, hok']
          exact ⟨rfl, .patch hp hp', _, ha'⟩
  | truncate n =>
    obtain ⟨⟨db₁, hok⟩, ⟨db₁', hok'⟩⟩ := htruncate n rfl
    simp only [Request.serve, hok, hok']
    exact ⟨trivial, .truncate hok hok', _, ha.truncate hok hok'⟩
  | latestVersion =>
    simp only [Request.serve, ha.latestVersion_eq]
    exact ⟨trivial, .none, hist, ha⟩
  | rootHash v =>
    refine ⟨congrArg (Functor.map _) ?_, .none, hist, ha⟩
    rcases hread' v rfl with hsame | ⟨h, h'⟩
    · exact hsame.rootHash_eq
    · rw [rootHash, rootHash, h, h']
  | rootInfo v =>
    refine ⟨congrArg (Functor.map _) ?_, .none, hist, ha⟩
    rcases hread' v rfl with hsame | ⟨h, h'⟩
    · exact hsame.rootInfo_eq
    · rw [rootInfo, rootInfo, h, h']
  | prove v keys =>
    refine ⟨congrArg (Functor.map _) ?_, .none, hist, ha⟩
    rcases hread' v rfl with hsame | ⟨h, h'⟩
    · exact hsame.prove_eq keys
    · rw [prove, prove, h, h']
      rfl

end

end Agree

/-! ### The patch set and RocksDB -/

theorem Request.serve_cases [Database DB H] [Inhabited H] {nodes : NodeKey → Option (Node H)} {db : DB}
    (hh : Holds P hasher nodes db hist) (request : Request) : (request.serve P hasher db).2 = db ∨
      (∃ n, truncateRecentVersions db n = .ok (request.serve P hasher db).2) ∨
      ∃ c' J part patch, Committed P hasher nodes hist.length (latestLeaves hist) c' J part patch ∧
        applyPatch db patch = .ok (request.serve P hasher db).2 := by
  cases request with
  | extend entries =>
    simp only [serve]
    split
    next db' output h =>
      obtain ⟨-, J, part, patch, hc, happly⟩ := hh.extend h
      exact .inr (.inr ⟨_, J, part, patch, hc, happly⟩)
    · exact .inl rfl
  | extendWithProof entries readKeys =>
    simp only [serve]
    split
    next db' output proof h =>
      rw [MerkleTree.extendWithProof] at h
      obtain ⟨⟨w, u⟩, hload, h⟩ := bind_eq_ok.mp h
      obtain ⟨proof', -, h⟩ := bind_eq_ok.mp h
      obtain ⟨⟨db'', output'⟩, hcommit, h⟩ := bind_eq_ok.mp h
      cases pure_eq_ok.mp h
      obtain ⟨-, J, part, patch, hc, happly⟩ := hh.committed hload hcommit
      exact .inr (.inr ⟨_, J, part, patch, hc, happly⟩)
    · exact .inl rfl
  | truncate n =>
    simp only [serve]
    split
    next db' h =>
      exact .inr (.inl ⟨n, h⟩)
    · exact .inl rfl
  | latestVersion => exact .inl rfl
  | rootHash v => exact .inl rfl
  | rootInfo v => exact .inl rfl
  | prove v keys => exact .inl rfl

structure WrittenBelow (written : Nat) (db : RocksDBWrapper H) : Prop where
  root : ∀ v, v < written → ∃ root, db.tryRoot v = .ok (some root)
  rest : ∀ v, written ≤ v → db.tryRoot v = .ok none

theorem RocksRepresents.length_unique {db : RocksDBWrapper H} {hist' : List Contents}
    (hr : RocksRepresents P hasher db hist) (hr' : RocksRepresents P hasher db hist') : hist.length = hist'.length := by
  have h := hr.manifest.symm.trans hr'.manifest
  split at h <;> split at h <;> simp at h <;> omega

theorem RocksDBWrapper.tree_truncateRecentVersions {db db' : RocksDBWrapper H}
    (h : truncateRecentVersions db n = .ok db') : db'.tree = db.tree := by
  rw [truncateRecentVersions] at h
  obtain ⟨manifest, -, h⟩ := bind_eq_ok.mp h
  simp only at h
  split at h
  · change db.truncate _ _ = _ at h
    rw [truncate] at h
    obtain ⟨nibbles, -, h⟩ := bind_eq_ok.mp h
    obtain ⟨_, -, h⟩ := bind_eq_ok.mp h
    obtain ⟨root, -, h⟩ := bind_eq_ok.mp h
    cases root with
    | none => exact absurd h (by simp [throw, throwThe, MonadExceptOf.throw])
    | some root =>
      obtain ⟨keys, -, h⟩ := bind_eq_ok.mp h
      cases pure_eq_ok.mp h
      rfl
  · cases pure_eq_ok.mp h
    rfl

variable [Inhabited H]

/-- Truncated roots stay until their version is written again. -/
theorem WrittenBelow.serve {db : RocksDBWrapper H} {hist' : List Contents} {written : Nat}
    (hw : WrittenBelow written db) (hr : RocksRepresents P hasher db hist) (hle : hist.length ≤ written)
    (request : Request) (hr' : RocksRepresents P hasher (request.serve P hasher db).2 hist') :
    WrittenBelow (max written hist'.length) (request.serve P hasher db).2 := by
  obtain hsame | ⟨n, htrunc⟩ | ⟨c', J, part, patch, hc, happly⟩ := request.serve_cases hr.holds
  · rw [hsame] at hr' ⊢
    have := hr.length_unique hr'
    rwa [Nat.max_eq_left (by omega)]
  · generalize (request.serve P hasher db).2 = db' at htrunc hr' ⊢
    have hlen : hist'.length ≤ hist.length := by
      obtain ⟨-, e, he⟩ | ⟨db'', hok, hs, -⟩ :=
        truncate (show LawfulDatabase.Stores P hasher db hist from hr) n
      · rw [htrunc] at he
        cases he
      · rw [htrunc] at hok
        cases hok
        have := hr'.length_unique hs
        rw [List.length_take] at this
        omega
    have hroot : ∀ v, db'.tryRoot v = db.tryRoot v := fun v => by
      rw [RocksDBWrapper.tryRoot, RocksDBWrapper.tryRoot, RocksDBWrapper.tree_truncateRecentVersions htrunc]
    rw [Nat.max_eq_left (by omega)]
    exact ⟨fun v hv => hroot v ▸ hw.root v hv, fun v hv => hroot v ▸ hw.rest v hv⟩
  · generalize (request.serve P hasher db).2 = db' at happly hr' ⊢
    obtain ⟨db'', happly', hr'', happlied⟩ := hr.applyPatch hc
    cases happly.symm.trans happly'
    have hlen := hr'.length_unique hr''
    rw [List.length_append, List.length_singleton] at hlen
    have hroot : ∀ v, v ≠ hist.length → db'.tryRoot v = db.tryRoot v := fun v hv =>
      hr.tryRoot_applyPatch hc happly hv
    refine ⟨fun v hv => ?_, fun v hv => ?_⟩
    · by_cases hvl : v = hist.length
      · obtain ⟨root, hr₁, -⟩ := hr''.trees v c' (by rw [hvl]; simp)
        exact ⟨root, hr₁⟩
      · rw [hroot v hvl]
        exact hw.root v (by omega)
    · rw [hroot v (by omega)]
      exact hw.rest v (by omega)

/-- Every version that is read is below the version count, or was not written at
any time before. -/
def ReadsCurrent (P : TreeParams) (hasher : HashTree H) : PatchSet H → Nat → List Request → Prop
  | _, _, [] => True
  | db, written, request :: requests =>
    (∀ v ∈ request.version?, v < db.manifest.versionCount ∨ max written db.manifest.versionCount ≤ v) ∧
      ReadsCurrent P hasher (request.serve P hasher db).2 (max written db.manifest.versionCount) requests

instance decidableReadsCurrent (P : TreeParams) (hasher : HashTree H) : (db : PatchSet H) → (written : Nat) →
    (requests : List Request) → Decidable (ReadsCurrent P hasher db written requests)
  | _, _, [] => .isTrue trivial
  | db, written, request :: requests =>
    have := decidableReadsCurrent P hasher (request.serve P hasher db).2 (max written db.manifest.versionCount) requests
    inferInstanceAs (Decidable (_ ∧ _))

theorem serve_ne_of_truncated {db : DB} {db' : DB'} [Database DB H] [Database DB' H] {root : Root H}
    {request : Request} (hv : v ∈ request.version?) (h : tryRoot db v = .ok none)
    (h' : tryRoot db' v = .ok (some root)) : (request.serve P hasher db).1 ≠ (request.serve P hasher db').1 := by
  intro heq
  cases request with
  | rootHash v =>
    cases hv
    simp only [Request.serve, rootHash, h, h', ok_bind] at heq
    obtain ⟨x, hx, he⟩ := map_eq_ok.mp heq.symm
    obtain ⟨hash, -, hx⟩ := bind_eq_ok.mp hx
    cases pure_eq_ok.mp hx
    cases he
  | rootInfo v =>
    cases hv
    simp only [Request.serve, rootInfo, h, h', ok_bind] at heq
    obtain ⟨x, hx, he⟩ := map_eq_ok.mp heq.symm
    obtain ⟨hash, -, hx⟩ := bind_eq_ok.mp hx
    cases pure_eq_ok.mp hx
    cases he
  | prove v keys =>
    cases hv
    simp only [Request.serve, prove, h, h', ok_bind] at heq
    obtain ⟨x, hx, he⟩ := map_eq_ok.mp heq.symm
    obtain ⟨hash, -, hx⟩ := bind_eq_ok.mp hx
    obtain ⟨⟨w, u⟩, -, hx⟩ := bind_eq_ok.mp hx
    obtain ⟨proof, -, hx⟩ := bind_eq_ok.mp hx
    cases pure_eq_ok.mp hx
    cases he
  | _ => exact absurd hv (by simp [Request.version?])

omit [Inhabited H] in
theorem Represents.tryRoot_of_ge {ps : PatchSet H} (hr : Represents P hasher ps hist) (hv : hist.length ≤ v) :
    ps.tryRoot v = .ok none := by
  rw [PatchSet.tryRoot]
  cases hpart : ps.patchesByVersion[v]? with
  | none => rfl
  | some part => exact absurd (hr.parts v part hpart) (by omega)

theorem responses_eq_iff {ps : PatchSet H} {db : RocksDBWrapper H} {written : Nat} {requests : List Request}
    (ha : Agree P hasher ps db hist) (hw : WrittenBelow (max written hist.length) db)
    (h0 : ∀ request ∈ requests, request ≠ .truncate 0) :
    responses P hasher ps requests = responses P hasher db requests ↔ ReadsCurrent P hasher ps written requests := by
  induction requests generalizing ps db hist written with
  | nil => exact ⟨fun _ => trivial, fun _ => rfl⟩
  | cons request requests ih =>
    have hps : Represents P hasher ps hist := ha.left
    have hdb : RocksRepresents P hasher db hist := ha.right
    simp only [responses, ReadsCurrent, List.cons.injEq, hps.count]
    by_cases hread : ∀ v ∈ request.version?, v < hist.length ∨ max written hist.length ≤ v
    · have htruncate : ∀ n, request = .truncate n → CanTruncate ps n ∧ CanTruncate db n := fun n hn =>
        have hne : n ≠ 0 := fun he => h0 request List.mem_cons_self (by rw [hn, he])
        ⟨canTruncate ha.left hne, canTruncate ha.right hne⟩
      obtain ⟨heq, -, hist', ha'⟩ := ha.serve request htruncate fun v hv hge =>
        ⟨hps.tryRoot_of_ge hge, hw.rest v ((hread v hv).resolve_left (by omega))⟩
      have hw' := hw.serve hdb (le_max_right _ _) request ha'.right
      rw [and_iff_right heq, and_iff_right hread]
      exact ih ha' hw' fun r hr => h0 r (List.mem_cons_of_mem _ hr)
    · refine iff_of_false (fun h => ?_) fun h => hread h.1
      push Not at hread
      obtain ⟨v, hv, hge, hlt⟩ := hread
      obtain ⟨root, hroot⟩ := hw.root v hlt
      exact serve_ne_of_truncated hv (hps.tryRoot_of_ge hge) hroot h.1

/-- The databases give the same answers exactly if no version is read that was
truncated and not written again. -/
theorem backends_agree_iff (P : TreeParams) (hasher : HashTree H) (requests : List Request)
    (h0 : ∀ request ∈ requests, request ≠ .truncate 0) : responses P hasher (PatchSet.empty : PatchSet H) requests =
        responses P hasher (RocksDBWrapper.empty : RocksDBWrapper H) requests ↔
      ReadsCurrent P hasher (PatchSet.empty : PatchSet H) 0 requests := by
  have ha : Agree P hasher (PatchSet.empty : PatchSet H) (RocksDBWrapper.empty : RocksDBWrapper H) [] :=
    ⟨Represents.empty, RocksRepresents.empty, by simp, by simp⟩
  refine responses_eq_iff ha ?_ h0
  exact ⟨fun v hv => absurd hv (by simp), fun v _ => by simp [RocksDBWrapper.tryRoot, RocksDBWrapper.empty]⟩

omit [Inhabited H] in
theorem backends_agree_iff_small : responses .small Digest.hasher (PatchSet.empty : PatchSet Digest)
        [.extend [⟨5, 1⟩], .extend [⟨7, 1⟩], .truncate 1, .extend [⟨7, 2⟩], .prove 1 [7], .rootHash 2] =
      responses .small Digest.hasher (RocksDBWrapper.empty : RocksDBWrapper Digest)
        [.extend [⟨5, 1⟩], .extend [⟨7, 1⟩], .truncate 1, .extend [⟨7, 2⟩], .prove 1 [7], .rootHash 2] := by
  rw [backends_agree_iff .small Digest.hasher _ (by decide)]
  decide +kernel

omit [Inhabited H] in
/-- A truncated version is still served by RocksDB. -/
theorem truncated_version_served :
    rootHash .small Digest.hasher (run .small Digest.hasher [.extend [], .extend [], .truncate 1]
      (PatchSet.empty : PatchSet Digest)) 1 = .ok none ∧
    (rootHash .small Digest.hasher (run .small Digest.hasher [.extend [], .extend [], .truncate 1]
      (RocksDBWrapper.empty : RocksDBWrapper Digest)) 1).map Option.isSome = .ok true := by
  decide +kernel

end MerkleTree
