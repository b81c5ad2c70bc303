import NgxPlus.Diversion.GetPolicy
import NgxPlus.Diversion.Paging

/-!
# Loading the number sets: `sync_policy` (`init_worker.lua:88-158`)

| here | there |
| --- | --- |
| `numsetPage`, `getNumset`   | `lib/admin/get_numset.lua`: 40000 rows from the offset, and one more |
| `getAndUpdatePolicyNumset`  | `get_and_update_policy_numset` (`:88-110`) |
| `numsetLoop`, `pidsLoop`    | the two loops (`:138-151`); `fuel` bounds the pages of one policy |
| `loadNumsets`               | `get_policyid` and the loops: one attempt |
| `syncPolicy`                | the function behind `get_runtimeinfo_ver` (`:112-158`) |

`rows pid` is the column `val` of `t_policy_numset` for a policy, in the order in which every
query returns it.

* `numsetLoop_exact`: the loop over the pages ends, and then the keys of a tree are the rows,
  whatever earlier attempts left in it.
* `syncPolicy_completes_iff`: a run in which nothing fails ends in status 2 exactly when every
  set that is referred to has a row, and every bit-backed one has the vector and one reference.
-/

namespace NgxPlus.Diversion

open ByteMem Decode Rbtree Trace

/-! ## The server script -/

def pagesize : Nat := 40000

/-- `limit pIdx*pagesize, pagesize+1`. -/
def numsetPage (rows : List Nat) (pIdx : Nat) : List Nat :=
  (rows.drop (pIdx * pagesize)).take (pagesize + 1)

def getNumset (rows : List Nat) (pIdx : Nat) : Bytes := pageBytes (numsetPage rows pIdx)

/-! ## The worker -/

/-- What a request for a page meets. -/
structure PageEnv where
  /-- Answered with 200 and the content type. -/
  arrives : Bool
  after : Mem
  behind : Behind
  slab : Stream' Bool

/-- `ismore`, or an error of `update_numset`. -/
inductive IsMore
  | nil
  | one
  | two
  | raised
deriving DecidableEq, Repr

def getAndUpdatePolicyNumset (rows : List Nat) (e : PageEnv) (s : Shm) (ver pid pIdx : Nat) :
    IsMore × Shm :=
  if e.arrives then
    let body := getNumset rows pIdx
    let datalen := (luaReadUint32 e.behind body).1
    match updateNumset s body e.after e.slab pid ver with
    | (.ok, s) => (if datalen ≤ 40000 then .one else .two, s)
    | (_, s) => (.raised, s)
  else (.nil, s)

/-- How far `sync_policy` got. -/
inductive Ending
  | completed
  | returned
  | raised
  /-- Out of fuel. -/
  | running
deriving DecidableEq, Repr

def numsetLoop (rows : List Nat) (env : Nat → PageEnv) (ver pid : Nat) : Nat → Nat → Shm → Ending × Shm
  | 0, _, s => (.running, s)
  | fuel + 1, pIdx, s =>
    match getAndUpdatePolicyNumset rows (env pIdx) s ver pid pIdx with
    | (.nil, s) => (.returned, s)
    | (.raised, s) => (.raised, s)
    | (.one, s) => (.completed, s)
    | (.two, s) => numsetLoop rows env ver pid fuel (pIdx + 1) s

/-- `env i` is what the requests for the policy at place `i` of the list meet. -/
def pidsLoop (rows : Nat → List Nat) (env : Nat → Nat → PageEnv) (ver fuel : Nat) :
    List Nat → Nat → Shm → Ending × Shm
  | [], _, s => (.completed, s)
  | pid :: pids, i, s =>
    match numsetLoop (rows pid) (env i) ver pid fuel 0 s with
    | (.completed, s) => pidsLoop rows env ver fuel pids (i + 1) s
    | r => r

def loadNumsets (rows : Nat → List Nat) (env : Nat → Nat → PageEnv) (ver fuel : Nat) (s : Shm) :
    Ending × Shm :=
  match getPolicyid s ver with
  | .ok pids => pidsLoop rows env ver fuel pids 0 s
  | .error _ => (.raised, s)

/-- What a run of `sync_policy` meets: the answer to `get_policy`, and those to `get_numset`. -/
structure SyncEnv where
  policy : Option (Bytes × Mem × Stream' Bool)
  page : Nat → Nat → PageEnv

/-- The result is how it ended, `prever`, and the shared state. -/
def syncPolicy (rodata : Rodata) (rows : Nat → List Nat) (env : SyncEnv) (fuel : Nat) (s : Shm)
    (prever : Int) : Ending × Int × Shm :=
  if s.status = 0 then (.returned, 0, s)
  else if (s.version : Int) = prever then (.returned, prever, s)
  else
    let ver := s.version
    match env.policy with
    | none => (.returned, prever, s)
    | some (body, after, slab) =>
      match updatePolicy rodata s body after slab ver with
      | (.ok, s) =>
        match loadNumsets rows env.page ver fuel s with
        | (.completed, s) =>
          match activePolicy s ver with
          | (.ok, s) => (.completed, ver, s)
          | (_, s) => (.raised, prever, s)
        | (ending, s) => (ending, prever, s)
      | (_, s) => (.raised, prever, s)

/-- An attempt at loading that met `env`. -/
structure Attempt where
  env : Nat → Nat → PageEnv
  fuel : Nat

def attempt (rows : Nat → List Nat) (s : Shm) (a : Attempt) : Shm :=
  (loadNumsets rows a.env s.version a.fuel s).2

/-- `update_policy` accepted the table in status 1, and any number of attempts followed. -/
def Underway (rows : Nat → List Nat) (s : Shm) : Prop :=
  ∃ rodata s₀ d s₁ attempts, s₀.status = 1 ∧ s₀.policyGroup = [] ∧
    diversionDecodePolicy rodata s₀ d s₀.version = (.ok, s₁) ∧ s = run (attempt rows) s₁ attempts

/-- The values of `t_policy_numset`. -/
def RowsOk (rows : Nat → List Nat) : Prop := ∀ pid, ∀ v ∈ rows pid, NumOk v

/-- Nothing fails. -/
def PageEnv.Ok (e : PageEnv) : Prop := e.arrives = true ∧ e.slab = Stream'.const true

/-! ## Pages -/

theorem length_numsetPage (rows : List Nat) (pIdx : Nat) :
    (numsetPage rows pIdx).length = min 40001 (rows.length - pIdx * 40000) := by
  rw [numsetPage, List.length_take, List.length_drop]
  rfl

theorem numsetPage_ne_nil {rows : List Nat} {pIdx : Nat} (h : pIdx * 40000 < rows.length) :
    numsetPage rows pIdx ≠ [] := by
  intro h0
  have hlen := length_numsetPage rows pIdx
  rw [h0, List.length_nil] at hlen
  omega

theorem mem_of_mem_numsetPage {rows : List Nat} {pIdx v : Nat} (h : v ∈ numsetPage rows pIdx) : v ∈ rows :=
  List.mem_of_mem_drop (List.mem_of_mem_take h)

/-- A page holds the rows up to the next page's offset. -/
theorem mem_take_succ_page {rows : List Nat} {pIdx v : Nat} (h : v ∈ rows.take ((pIdx + 1) * 40000)) :
    v ∈ rows.take (pIdx * 40000) ∨ v ∈ numsetPage rows pIdx := by
  rw [Nat.succ_mul, List.take_add, List.mem_append] at h
  rcases h with h | h
  · exact Or.inl h
  · exact Or.inr (List.mem_of_mem_take (i := 40000) (by rwa [numsetPage, List.take_take]))

theorem numsetPage_ok {rows : List Nat} (h : ∀ v ∈ rows, NumOk v) (pIdx : Nat) :
    (numsetPage rows pIdx).length < 2 ^ 32 ∧ ∀ v ∈ numsetPage rows pIdx, NumOk v := by
  refine ⟨?_, fun v hv => h v (mem_of_mem_numsetPage hv)⟩
  rw [length_numsetPage]
  omega

/-- The stop test sees the length of the page. -/
theorem datalen_getNumset (behind : Behind) (rows : List Nat) (pIdx : Nat) :
    (luaReadUint32 behind (getNumset rows pIdx)).1 = min 40001 (rows.length - pIdx * 40000) := by
  rw [getNumset, pageBytes, luaReadUint32_write, length_numsetPage]
  exact Nat.mod_eq_of_lt (by omega)

/-! ## The loops -/

section Loops

variable {rows : List Nat} {env : Nat → PageEnv} {ver pid : Nat}

/-- The call for one page. -/
def pageCall (rows : List Nat) (e : PageEnv) (ver pid pIdx : Nat) (s : Shm) : Rc × Shm :=
  updateNumset s (getNumset rows pIdx) e.after e.slab pid ver

/-- Everything a request for a page can do. -/
theorem getAndUpdatePolicyNumset_cases {e : PageEnv} {s s' : Shm} {i : Nat} {rc : Rc}
    (hc : pageCall rows e ver pid i s = (rc, s')) :
    (e.arrives = false ∧ getAndUpdatePolicyNumset rows e s ver pid i = (.nil, s)) ∨
    (rc = .ok ∧ getAndUpdatePolicyNumset rows e s ver pid i =
      (if rows.length ≤ (i + 1) * 40000 then .one else .two, s')) ∨
    (rc ≠ .ok ∧ getAndUpdatePolicyNumset rows e s ver pid i = (.raised, s')) := by
  have hlast : min 40001 (rows.length - i * 40000) ≤ 40000 ↔ rows.length ≤ (i + 1) * 40000 := by omega
  rw [pageCall] at hc
  rw [getAndUpdatePolicyNumset]
  cases e.arrives with
  | false => exact Or.inl ⟨rfl, rfl⟩
  | true =>
    right
    simp only [if_true, datalen_getNumset, hlast, hc]
    cases rc with
    | ok => exact Or.inl ⟨rfl, rfl⟩
    | error => exact Or.inr ⟨by simp, rfl⟩
    | declined => exact Or.inr ⟨by simp, rfl⟩
    | segv => exact Or.inr ⟨by simp, rfl⟩

/-- What every page keeps, the loop keeps, however it ends. -/
theorem numsetLoop_keeps {J : Shm → Prop}
    (hstep : ∀ i s, J s → J (pageCall rows (env i) ver pid i s).2) {fuel i : Nat} {s : Shm} (hs : J s) :
    J (numsetLoop rows env ver pid fuel i s).2 := by
  induction fuel generalizing i s with
  | zero => exact hs
  | succ fuel ih =>
    have hpage := hstep i s hs
    obtain ⟨⟨rc, s'⟩, hc⟩ : ∃ c, pageCall rows (env i) ver pid i s = c := ⟨_, rfl⟩
    rw [hc] at hpage
    rcases getAndUpdatePolicyNumset_cases hc with ⟨-, h⟩ | ⟨-, h⟩ | ⟨-, h⟩
    · rw [numsetLoop, h]
      exact hs
    · rw [numsetLoop, h]
      split_ifs
      · exact hpage
      · exact ih hpage
    · rw [numsetLoop, h]
      exact hpage

/-- A loop that completed had its first page taken. -/
theorem numsetLoop_first {fuel i : Nat} {s : Shm}
    (h : (numsetLoop rows env ver pid fuel i s).1 = .completed) :
    (pageCall rows (env i) ver pid i s).1 = .ok := by
  obtain ⟨⟨rc, s'⟩, hc⟩ : ∃ c, pageCall rows (env i) ver pid i s = c := ⟨_, rfl⟩
  rw [hc]
  cases fuel with
  | zero => simp [numsetLoop] at h
  | succ fuel =>
    rw [numsetLoop] at h
    rcases getAndUpdatePolicyNumset_cases hc with ⟨-, h'⟩ | ⟨hok, -⟩ | ⟨-, h'⟩
    · simp [h'] at h
    · exact hok
    · simp [h'] at h

theorem numsetLoop_succ {fuel i : Nat} {s s' : Shm} (henv : (env i).Ok)
    (hc : pageCall rows (env i) ver pid i s = (.ok, s')) :
    numsetLoop rows env ver pid (fuel + 1) i s =
      if rows.length ≤ (i + 1) * 40000 then (.completed, s')
      else numsetLoop rows env ver pid fuel (i + 1) s' := by
  rcases getAndUpdatePolicyNumset_cases hc with ⟨h, -⟩ | ⟨-, h⟩ | ⟨h, -⟩
  · simp [henv.1] at h
  · rw [numsetLoop, h]
    split_ifs <;> rfl
  · exact absurd rfl h

/-- **Termination**: where every page is taken, the loop ends behind the last row. `I j` holds in
front of page `j`. -/
theorem numsetLoop_completes {I : Nat → Shm → Prop} (henv : ∀ i, (env i).Ok)
    (hstep : ∀ i s, I i s → i * 40000 < rows.length →
      (pageCall rows (env i) ver pid i s).1 = .ok ∧ I (i + 1) (pageCall rows (env i) ver pid i s).2)
    {i : Nat} {s : Shm} (hI : I i s) (hi : i * 40000 < rows.length) :
    ∃ n j s', (∀ fuel ≥ n, numsetLoop rows env ver pid fuel i s = (.completed, s')) ∧
      rows.length ≤ j * 40000 ∧ I j s' := by
  -- the rows to come get fewer with every page
  induction hm : rows.length - i * 40000 using Nat.strong_induction_on generalizing i s with
  | _ m ih =>
    obtain ⟨hok, hI'⟩ := hstep i s hI hi
    obtain ⟨s₁, hc⟩ : ∃ s₁, pageCall rows (env i) ver pid i s = (.ok, s₁) := ⟨_, Prod.ext hok rfl⟩
    rw [hc] at hI'
    by_cases hlast : rows.length ≤ (i + 1) * 40000
    · refine ⟨1, i + 1, _, ?_, hlast, hI'⟩
      intro fuel hfuel
      obtain ⟨f, rfl⟩ : ∃ f, fuel = f + 1 := ⟨fuel - 1, by omega⟩
      rw [numsetLoop_succ (henv i) hc, if_pos hlast]
    · have hi' : (i + 1) * 40000 < rows.length := not_le.1 hlast
      have hlt : rows.length - (i + 1) * 40000 < m := by omega
      obtain ⟨n, j, s', hrun, hj, hIj⟩ := ih (rows.length - (i + 1) * 40000) hlt (i := i + 1) hI' hi' rfl
      refine ⟨n + 1, j, s', ?_, hj, hIj⟩
      intro fuel hfuel
      obtain ⟨f, rfl⟩ : ∃ f, fuel = f + 1 := ⟨fuel - 1, by omega⟩
      rw [numsetLoop_succ (henv i) hc, if_neg hlast]
      exact hrun f (by omega)

end Loops

section Pids

variable {rows : Nat → List Nat} {env : Nat → Nat → PageEnv} {ver fuel : Nat}

theorem pidsLoop_keeps {J : Shm → Prop}
    (hstep : ∀ pid e i s, J s → J (pageCall (rows pid) e ver pid i s).2) {pids : List Nat} {i : Nat}
    {s : Shm} (hs : J s) : J (pidsLoop rows env ver fuel pids i s).2 := by
  induction pids generalizing i s with
  | nil => exact hs
  | cons pid pids ih =>
    have hloop : J (numsetLoop (rows pid) (env i) ver pid fuel 0 s).2 :=
      numsetLoop_keeps (fun j s => hstep pid _ j s) hs
    rw [pidsLoop]
    split
    · rename_i s' h
      rw [h] at hloop
      exact ih hloop
    · exact hloop

theorem loadNumsets_keeps {J : Shm → Prop}
    (hstep : ∀ pid e i s, J s → J (pageCall (rows pid) e ver pid i s).2) {s : Shm} (hs : J s) :
    J (loadNumsets rows env ver fuel s).2 := by
  rw [loadNumsets]
  cases getPolicyid s ver with
  | ok pids => exact pidsLoop_keeps hstep hs
  | error e => exact hs

/-- A run that completed has completed the loop of every policy. -/
theorem pidsLoop_each {J : Shm → Prop}
    (hstep : ∀ pid e i s, J s → J (pageCall (rows pid) e ver pid i s).2) {pids : List Nat} {i : Nat}
    {s : Shm} (hs : J s) (h : (pidsLoop rows env ver fuel pids i s).1 = .completed) :
    ∀ pid ∈ pids, ∃ j s', J s' ∧ (numsetLoop (rows pid) (env j) ver pid fuel 0 s').1 = .completed := by
  induction pids generalizing i s with
  | nil => simp
  | cons pid pids ih =>
    have hloop : J (numsetLoop (rows pid) (env i) ver pid fuel 0 s).2 :=
      numsetLoop_keeps (fun j s => hstep pid _ j s) hs
    rw [pidsLoop] at h
    split at h
    · rename_i s' h'
      rw [h'] at hloop
      intro p hp
      rcases List.mem_cons.1 hp with rfl | hp
      · exact ⟨i, s, hs, by rw [h']⟩
      · exact ih hloop h p hp
    · rename_i hno
      exact (hno _ (Prod.ext h rfl)).elim

/-- Where the loop of every policy completes, the run does. -/
theorem pidsLoop_completes {J : Shm → Prop} {pids : List Nat}
    (hloop : ∀ pid ∈ pids, ∀ i s, J s → ∃ n s',
      (∀ fuel ≥ n, numsetLoop (rows pid) (env i) ver pid fuel 0 s = (.completed, s')) ∧ J s')
    {i : Nat} {s : Shm} (hs : J s) :
    ∃ n s', (∀ fuel ≥ n, pidsLoop rows env ver fuel pids i s = (.completed, s')) ∧ J s' := by
  induction pids generalizing i s with
  | nil => exact ⟨0, s, fun _ _ => rfl, hs⟩
  | cons pid pids ih =>
    obtain ⟨n, s', hrun, hs'⟩ := hloop pid List.mem_cons_self i s hs
    obtain ⟨n', s'', hrun', hs''⟩ := ih (fun p hp => hloop p (List.mem_cons_of_mem _ hp)) hs'
    refine ⟨max n n', s'', ?_, hs''⟩
    intro fuel hfuel
    rw [pidsLoop, hrun fuel (le_of_max_le_left hfuel)]
    exact hrun' fuel (le_of_max_le_right hfuel)

end Pids

/-! ## While numbers are loaded -/

/-- Every key of a tree is a row of its policy. -/
def KeysFromRows (rows : Nat → List Nat) (s : Shm) : Prop :=
  ∀ i t, (s.policyAt i).data = .rbtree t → ∀ v ∈ t.keys, v ∈ rows (s.policyAt i).id

/-- What holds from the acceptance of the table until it is activated. -/
structure Loading (rows : Nat → List Nat) (s : Shm) : Prop where
  status : s.status = 1
  groups : s.policyGroup ≠ []
  table : SetTable s
  keys : KeysFromRows rows s

theorem mem_refs {s : Shm} {k : Nat} : k ∈ s.refs ↔ ∃ g ∈ s.policyGroup, k ∈ g.policys := by
  rw [Shm.refs, List.mem_flatMap]

/-- The decoder makes empty trees only. -/
theorem tree_eq_init_of_fresh {p : DiversionPolicy} (h : Fresh p) {t : NgxRbtree Nat}
    (ht : p.data = .rbtree t) : t = .init := by
  have hd := h.2.2
  rw [ht] at hd
  unfold FreshData at hd
  split at hd
  · simp at hd
  · simp at hd
  · split at hd
    · simp at hd
    · exact PolicyData.rbtree.inj hd
  · split at hd
    · simp at hd
    · simp at hd
  · simp at hd
  · exact hd.elim
  · exact hd.elim

section Accepted

variable {s : Shm} {t : PolicyTable}

/-- The state `update_policy` leaves when it accepts `t`. -/
def Shm.withTable (s : Shm) (t : PolicyTable) : Shm :=
  { s with policys := t.policys, policyGroup := t.policyGroup, globalBitvector1 := t.globalBitvector1 }

theorem fresh_policyAt (ht : t.Loaded) {k : Nat} (hk : k < t.policys.length) :
    Fresh ((s.withTable t).policyAt k) := by
  show Fresh (t.policys.getD k default)
  rw [List.getD_eq_getElem _ _ hk]
  exact ht.fresh _ (List.getElem_mem hk)

theorem setTable_of_loaded (ht : t.Loaded) : SetTable (s.withTable t) := by
  refine ⟨?_, ?_, ?_⟩
  · intro k hk
    obtain ⟨g, hg, hk⟩ := mem_refs.1 hk
    exact (ht.refs g hg).2 k hk
  · intro j hj k hk he
    obtain ⟨g, hg, hj⟩ := mem_refs.1 hj
    obtain ⟨g', hg', hk⟩ := mem_refs.1 hk
    have hfj := ht.first g hg j hj
    have hfk := ht.first g' hg' k hk
    rw [FirstWithId] at hfj hfk
    have he : (t.policys.getD j default).id = (t.policys.getD k default).id := he
    rw [he, hfk] at hfj
    exact (Option.some.inj hfj).symm
  · intro k hk hst
    obtain ⟨g, hg, hk⟩ := mem_refs.1 hk
    have hd := (fresh_policyAt (s := s) ht ((ht.refs g hg).2 k hk)).2.2
    have hst : (confPtype ((s.withTable t).policyAt k).type).stype = .rbtree := hst
    rw [hst] at hd
    unfold FreshData at hd
    split
    · rename_i hb
      rwa [if_pos hb] at hd
    · rename_i hb
      rw [if_neg hb] at hd
      exact ⟨_, hd⟩

/-- The trees of an accepted table are empty. -/
theorem keysFromRows_of_loaded (ht : t.Loaded) (rows : Nat → List Nat) :
    KeysFromRows rows (s.withTable t) := by
  intro i t' hd v hv
  by_cases hi : i < t.policys.length
  · rw [tree_eq_init_of_fresh (fresh_policyAt ht hi) hd] at hv
    simp at hv
  · have hd : (t.policys.getD i default).data = .rbtree t' := hd
    rw [List.getD_eq_default _ _ (not_lt.1 hi)] at hd
    simp [default] at hd

theorem loading_of_loaded (ht : t.Loaded) (h1 : s.status = 1) (rows : Nat → List Nat) :
    Loading rows (s.withTable t) :=
  ⟨h1, ht.nonempty, setTable_of_loaded ht, keysFromRows_of_loaded ht rows⟩

end Accepted

theorem Loading.page {rows : Nat → List Nat} (hrows : RowsOk rows) {s : Shm} (h : Loading rows s)
    (pid : Nat) (e : PageEnv) (i : Nat) : Loading rows (pageCall (rows pid) e s.version pid i s).2 := by
  have hsame : SameTable s (pageCall (rows pid) e s.version pid i s).2 := updateNumset_sameTable _ _ _ _ _ _
  obtain ⟨hlen, hok⟩ := numsetPage_ok (hrows pid) i
  refine ⟨hsame.frame.status.trans h.status, ?_, h.table.of_same hsame, ?_⟩
  · rw [hsame.frame.policyGroup]
    exact h.groups
  · intro j t hd v hv
    rw [(hsame.policy j).id]
    rcases updateNumset_keys h.table h.status hlen hok hd hv with ⟨t₀, hd₀, hv₀⟩ | ⟨hid, hpage⟩
    · exact h.keys j t₀ hd₀ v hv₀
    · rw [hid]
      exact mem_of_mem_numsetPage hpage

/-- The same of one table. -/
structure LoadingFrom (rows : Nat → List Nat) (s₀ s : Shm) : Prop where
  loading : Loading rows s
  same : SameTable s₀ s

theorem LoadingFrom.page {rows : Nat → List Nat} (hrows : RowsOk rows) {s₀ s : Shm}
    (h : LoadingFrom rows s₀ s) (pid : Nat) (e : PageEnv) (i : Nat) :
    LoadingFrom rows s₀ (pageCall (rows pid) e s₀.version pid i s).2 := by
  rw [← h.same.frame.version]
  exact ⟨h.loading.page hrows pid e i, h.same.trans (updateNumset_sameTable _ _ _ _ _ _)⟩

theorem Loading.attempt {rows : Nat → List Nat} (hrows : RowsOk rows) {s : Shm} (h : Loading rows s)
    (a : Attempt) : Loading rows (attempt rows s a) := by
  have hkeep : LoadingFrom rows s (loadNumsets rows a.env s.version a.fuel s).2 :=
    loadNumsets_keeps (fun pid e i s' h' => h'.page hrows pid e i) ⟨h, .refl s⟩
  exact hkeep.loading

theorem loading_of_underway {rows : Nat → List Nat} (hrows : RowsOk rows) {s : Shm}
    (h : Underway rows s) : Loading rows s := by
  obtain ⟨rodata, s₀, d, s₁, as, h1, hg, hdec, rfl⟩ := h
  have ho := diversionDecodePolicy_outcome rodata s₀ d s₀.version
  rw [hdec] at ho
  have hs₁ : Loading rows s₁ := by
    cases ho with
    | ignored h =>
      rcases h with h | h
      · exact absurd rfl h
      · exact absurd hg h
    | loaded _ _ t ht _ => exact loading_of_loaded ht h1 rows
  exact run_inv (attempt rows) (C := fun _ _ => True) (fun s a hs _ => hs.attempt hrows a) hs₁
    (always_of_forall (attempt rows) (fun _ _ => trivial) s₁ as)

/-- With memory, a page is taken in a state of the run if its set can be loaded at all. -/
theorem LoadingFrom.page_ok {rows : Nat → List Nat} (hrows : RowsOk rows) {s₀ s : Shm}
    (h : LoadingFrom rows s₀ s) {k : Nat} (hk : k ∈ s₀.refs) (hset : s₀.stypeAt k = .rbtree)
    (hb : (s₀.policyAt k).bitsetId = 1 → s₀.globalBitvector1.isSome ∧ s₀.refs.count k = 1) {e : PageEnv}
    (he : e.Ok) {i : Nat} (hi : i * 40000 < (rows (s₀.policyAt k).id).length) :
    (pageCall (rows (s₀.policyAt k).id) e s₀.version (s₀.policyAt k).id i s).1 = .ok := by
  obtain ⟨hlen, hok⟩ := numsetPage_ok (hrows (s₀.policyAt k).id) i
  have hhit : s.Hit (s₀.policyAt k).id k := (h.same.hit _ k).2 ⟨hset, rfl⟩
  rw [← h.same.refs] at hk
  rw [← (h.same.policy k).bitsetId, ← h.same.refs, ← h.same.isSome] at hb
  rw [pageCall, he.2, ← h.same.frame.version]
  exact updateNumset_ok h.loading.table h.loading.status hlen hok hk hhit (numsetPage_ne_nil hi) hb e.after

/-! ## The trees -/

/-- In front of page `i`, the tree at `k` has the rows of the pages before. -/
def PagesIn (rows : Nat → List Nat) (s₀ : Shm) (k i : Nat) (s : Shm) : Prop :=
  LoadingFrom rows s₀ s ∧
    ∃ t, (s.policyAt k).data = .rbtree t ∧ ∀ v ∈ (rows (s₀.policyAt k).id).take (i * 40000), v ∈ t.keys

theorem PagesIn.step {rows : Nat → List Nat} (hrows : RowsOk rows) {s₀ s : Shm} {k i : Nat}
    (h : PagesIn rows s₀ k i s) (hk : k ∈ s₀.refs) (hset : s₀.stypeAt k = .rbtree)
    (hb : (s₀.policyAt k).bitsetId ≠ 1) {e : PageEnv} (he : e.Ok)
    (hi : i * 40000 < (rows (s₀.policyAt k).id).length) :
    PagesIn rows s₀ k (i + 1) (pageCall (rows (s₀.policyAt k).id) e s₀.version (s₀.policyAt k).id i s).2 := by
  obtain ⟨hfrom, t, hd, htake⟩ := h
  refine ⟨hfrom.page hrows _ e i, ?_⟩
  obtain ⟨hlen, hok⟩ := numsetPage_ok (hrows (s₀.policyAt k).id) i
  have hhit : s.Hit (s₀.policyAt k).id k := (hfrom.same.hit _ k).2 ⟨hset, rfl⟩
  rw [← hfrom.same.refs] at hk
  rw [← (hfrom.same.policy k).bitsetId] at hb
  have hcall := updateNumset_tree hfrom.loading.table hfrom.loading.status hlen hok hk hhit
    hb hd (numsetPage_ne_nil hi) e.after (granted_const _)
  rw [pageCall, he.2, ← hfrom.same.frame.version, getNumset, hcall]
  refine ⟨_, data_putTree (hfrom.loading.table.bound k hk) _ _, fun v hv => mem_keys_foldl.2 ?_⟩
  rcases mem_take_succ_page hv with hv | hv
  · exact Or.inl (htake v hv)
  · exact Or.inr hv

/-- **Paging loads exactly the table**: from any state of a synchronisation under way, the loop
over the pages of a tree-stored policy ends, and the keys of its tree are then its rows. -/
theorem numsetLoop_exact {rows : Nat → List Nat} (hrows : RowsOk rows) {s : Shm} (hs : Underway rows s)
    {k : Nat} (hk : k ∈ s.refs) (hset : s.stypeAt k = .rbtree) (hb : (s.policyAt k).bitsetId ≠ 1)
    (hne : rows (s.policyAt k).id ≠ []) {env : Nat → PageEnv} (henv : ∀ i, (env i).Ok) :
    ∃ n s' t,
      (∀ fuel ≥ n, numsetLoop (rows (s.policyAt k).id) env s.version (s.policyAt k).id fuel 0 s =
        (.completed, s')) ∧
      (s'.policyAt k).data = .rbtree t ∧ ∀ v, v ∈ t.keys ↔ v ∈ rows (s.policyAt k).id := by
  have hload := loading_of_underway hrows hs
  obtain ⟨t, hd⟩ : ∃ t, (s.policyAt k).data = .rbtree t := by
    have hkind := hload.table.kind k hk hset
    rwa [if_neg hb] at hkind
  have hstart : PagesIn rows s k 0 s := ⟨⟨hload, .refl s⟩, t, hd, by simp⟩
  have hpos : 0 * 40000 < (rows (s.policyAt k).id).length := by
    rw [Nat.zero_mul]
    exact List.length_pos_of_ne_nil hne
  obtain ⟨n, j, s', hrun, hj, hfrom, t', hd', htake⟩ := numsetLoop_completes (I := PagesIn rows s k) henv
    (fun i s' h hi => ⟨h.1.page_ok hrows hk hset (fun h1 => absurd h1 hb) (henv i) hi,
      h.step hrows hk hset hb (henv i) hi⟩) hstart hpos
  refine ⟨n, s', t', hrun, hd', fun v => ⟨fun hv => ?_, fun hv => ?_⟩⟩
  · have hrow := hfrom.loading.keys k t' hd' v hv
    rwa [(hfrom.same.policy k).id] at hrow
  · rw [List.take_of_length_le hj] at htake
    exact htake v hv

/-- One `aidset` in one group. -/
def oneSet : ServerConfig where
  policys := [⟨4, aidset, 0, [], []⟩]
  groups := [⟨ascii ['/', 'a'], 1, ascii ['u', 'p'], none, [4]⟩]

def beforeSet : Shm := { initialState false with status := 1, version := 3 }

/-- `oneSet`, accepted for version 3. -/
def oneSetState : Shm :=
  (diversionDecodePolicy (fun _ => Stream'.const 0) beforeSet
    (.full (utilityMqttWriteUint16 1 ++ tableBytes oneSet) (Stream'.const 0)) beforeSet.version).2

theorem underway_oneSetState (rows : Nat → List Nat) : Underway rows oneSetState := by
  have hrc : (diversionDecodePolicy (fun _ => Stream'.const 0) beforeSet
      (.full (utilityMqttWriteUint16 1 ++ tableBytes oneSet) (Stream'.const 0)) beforeSet.version).1 =
      .ok := by decide +kernel
  refine ⟨_, beforeSet, _, oneSetState, [], rfl, rfl, Prod.ext hrc ?_, (run_nil _ _).symm⟩
  rw [oneSetState]

theorem rowsOk_const {vals : List Nat} (h : ∀ v ∈ vals, NumOk v) : RowsOk fun _ => vals :=
  fun _ v hv => h v hv

theorem numsetLoop_exact_oneSet :
    ∃ n s' t, (∀ fuel ≥ n, numsetLoop [7, 5, 7] (fun _ => ⟨true, Stream'.const 0, fun _ => Stream'.const 0,
        Stream'.const true⟩) oneSetState.version (oneSetState.policyAt 0).id fuel 0 oneSetState =
          (.completed, s')) ∧
      (s'.policyAt 0).data = .rbtree t ∧ ∀ v, v ∈ t.keys ↔ v ∈ [7, 5, 7] :=
  numsetLoop_exact (rowsOk_const (by decide)) (underway_oneSetState _) (by decide +kernel) (by decide +kernel)
    (by decide +kernel) (by simp) fun _ => ⟨rfl, rfl⟩

/-! ## The whole run -/

/-- Every request is answered and every allocation succeeds. -/
structure SyncEnv.Ok (env : SyncEnv) : Prop where
  policy : env.policy.isSome
  page : ∀ i j, (env.page i j).Ok

/-- A run in which nothing fails ends in status 2 and remembers the version, whatever lies behind
the pages. -/
def Completes (rodata : Rodata) (rows : Nat → List Nat) (s : Shm) : Prop :=
  ∀ (env : SyncEnv) (prever : Int), env.Ok → prever ≠ s.version → ∃ (n : Nat) (s' : Shm),
    (∀ fuel ≥ n, syncPolicy rodata rows env fuel s prever = (Ending.completed, (s.version : Int), s')) ∧
    s'.status = 2 ∧ s'.version = s.version

/-- Every set that is referred to has a row; a bit-backed one has the vector and is referred to
once. -/
def Loadable (rows : Nat → List Nat) (s : Shm) : Prop :=
  ∀ k ∈ s.refs, s.stypeAt k = .rbtree → rows (s.policyAt k).id ≠ [] ∧
    ((s.policyAt k).bitsetId = 1 → s.globalBitvector1.isSome ∧ s.refs.count k = 1)

section Sync

variable {rows : Nat → List Nat} {s : Shm} (h : Loading rows s)
include h

/-- With the table there, `sync_policy` is the loading and the activation. -/
theorem syncPolicy_loading (rodata : Rodata) {env : SyncEnv} (henv : env.Ok) {prever : Int}
    (hp : prever ≠ s.version) (fuel : Nat) :
    syncPolicy rodata rows env fuel s prever =
      match loadNumsets rows env.page s.version fuel s with
      | (.completed, s') =>
        match activePolicy s' s.version with
        | (.ok, s') => (.completed, s.version, s')
        | (_, s') => (.raised, prever, s')
      | (ending, s') => (ending, prever, s') := by
  have h0 : s.status ≠ 0 := by rw [h.status]; decide
  obtain ⟨⟨body, after, slab⟩, hbody⟩ := Option.isSome_iff_exists.1 henv.policy
  have hupd : updatePolicy rodata s body after slab s.version = (.ok, s) := if_pos (Or.inr h.groups)
  rw [syncPolicy, if_neg h0, if_neg (fun he => hp he.symm), hbody]
  simp only [hupd]

theorem getPolicyid_loading :
    getPolicyid s s.version =
      .ok ((s.refs.filter fun k => s.stypeAt k = .rbtree).map fun k => (s.policyAt k).id) := by
  rw [getPolicyid, if_neg (not_not.2 h.status), if_neg (not_not.2 rfl)]

theorem completes_of_loadable (hrows : RowsOk rows) (hl : Loadable rows s) (rodata : Rodata) :
    Completes rodata rows s := by
  intro env prever henv hp
  have hloop : ∀ pid ∈ (s.refs.filter fun k => s.stypeAt k = .rbtree).map fun k => (s.policyAt k).id,
      ∀ i s', LoadingFrom rows s s' → ∃ n s'', (∀ fuel ≥ n,
        numsetLoop (rows pid) (env.page i) s.version pid fuel 0 s' = (.completed, s'')) ∧
        LoadingFrom rows s s'' := by
    intro pid hpid i s' hfrom
    obtain ⟨k, hk, rfl⟩ := List.mem_map.1 hpid
    obtain ⟨hk, hset⟩ := List.mem_filter.1 hk
    have hset : s.stypeAt k = .rbtree := by simpa using hset
    obtain ⟨hne, hb⟩ := hl k hk hset
    have hpos : 0 * 40000 < (rows (s.policyAt k).id).length := by
      rw [Nat.zero_mul]
      exact List.length_pos_of_ne_nil hne
    obtain ⟨n, j, s'', hrun, -, hfrom'⟩ := numsetLoop_completes (I := fun _ => LoadingFrom rows s)
      (henv.page i) (fun j s' h' hj => ⟨h'.page_ok hrows hk hset hb (henv.page i j) hj,
        h'.page hrows _ _ j⟩) hfrom hpos
    exact ⟨n, s'', hrun, hfrom'⟩
  obtain ⟨n, s', hrun, hfrom⟩ := pidsLoop_completes hloop (i := 0) ⟨h, .refl s⟩
  refine ⟨n, { s' with status := 2 }, ?_, rfl, hfrom.same.frame.version⟩
  intro fuel hfuel
  have hact : activePolicy s' s.version = (.ok, { s' with status := 2 }) := by
    refine if_neg ?_
    rw [not_or, not_not, not_not]
    exact ⟨hfrom.loading.status, hfrom.same.frame.version⟩
  rw [syncPolicy_loading h rodata henv hp, loadNumsets, getPolicyid_loading h]
  simp only [hrun fuel hfuel, hact]

/-- Nothing fails, and zeros lie behind every page. -/
def zeroEnv : SyncEnv where
  policy := some ([], Stream'.const 0, Stream'.const true)
  page _ _ := ⟨true, Stream'.const 0, fun _ => Stream'.const 0, Stream'.const true⟩

omit h in
theorem zeroEnv_ok : zeroEnv.Ok := ⟨rfl, fun _ _ => ⟨rfl, rfl⟩⟩

theorem loadable_of_completes (hrows : RowsOk rows) (rodata : Rodata) (hc : Completes rodata rows s) :
    Loadable rows s := by
  obtain ⟨n, s', hrun, -⟩ := hc zeroEnv (-1) zeroEnv_ok (by omega)
  have hrun := hrun n le_rfl
  rw [syncPolicy_loading h rodata zeroEnv_ok (by omega), loadNumsets, getPolicyid_loading h] at hrun
  simp only at hrun
  have hdone : (pidsLoop rows zeroEnv.page s.version n
      ((s.refs.filter fun k => s.stypeAt k = .rbtree).map fun k => (s.policyAt k).id) 0 s).1 =
      .completed := by
    split at hrun
    · rename_i s'' he
      rw [he]
    · rename_i ending s'' hno he
      have hend := congrArg Prod.fst hrun
      simp only at hend
      rw [he, hend]
  intro k hk hset
  have hpid : (s.policyAt k).id ∈
      (s.refs.filter fun k => s.stypeAt k = .rbtree).map fun k => (s.policyAt k).id :=
    List.mem_map.2 ⟨k, List.mem_filter.2 ⟨hk, by simpa using hset⟩, rfl⟩
  obtain ⟨j, s'', hfrom, hloop⟩ := pidsLoop_each (J := LoadingFrom rows s)
    (fun pid e i s' h' => h'.page hrows pid e i) ⟨h, .refl s⟩ hdone _ hpid
  obtain ⟨hlen, hok⟩ := numsetPage_ok (hrows (s.policyAt k).id) 0
  have hhit : s''.Hit (s.policyAt k).id k := (hfrom.same.hit _ k).2 ⟨hset, rfl⟩
  have hfirst := numsetLoop_first hloop
  rw [pageCall, ← hfrom.same.frame.version] at hfirst
  rw [← hfrom.same.refs] at hk
  obtain ⟨hne, hvec⟩ := updateNumset_ok_only hfrom.loading.table hfrom.loading.status hlen hok hk hhit hfirst
  rw [(hfrom.same.policy k).bitsetId, hfrom.same.refs, hfrom.same.isSome] at hvec
  refine ⟨fun h0 => hne ?_, fun hb => by rwa [if_pos hb] at hvec⟩
  rw [h0]
  rfl

end Sync

/-- **Synchronisation completes** exactly where every set can be loaded. -/
theorem syncPolicy_completes_iff {rows : Nat → List Nat} (hrows : RowsOk rows) {s : Shm}
    (hs : Underway rows s) (rodata : Rodata) : Completes rodata rows s ↔ Loadable rows s := by
  have hload := loading_of_underway hrows hs
  exact ⟨loadable_of_completes hload hrows rodata, fun hl => completes_of_loadable hload hrows hl rodata⟩

theorem syncPolicy_completes_oneSet :
    Completes (fun _ => Stream'.const 0) (fun _ => [7, 5, 7]) oneSetState := by
  refine (syncPolicy_completes_iff (rowsOk_const (by decide)) (underway_oneSetState _) _).2 ?_
  have hall : ∀ k ∈ oneSetState.refs, (oneSetState.policyAt k).bitsetId ≠ 1 := by decide +kernel
  intro k hk _
  exact ⟨by simp, fun h1 => absurd h1 (hall k hk)⟩

/-- A set without rows: the count 0 of its page is taken for an error. -/
theorem syncPolicy_raises_noRows :
    Underway (fun _ => []) oneSetState ∧ RowsOk (fun _ => []) ∧
    ¬ Completes (fun _ => Stream'.const 0) (fun _ => []) oneSetState := by
  have hrows : RowsOk fun _ => [] := rowsOk_const (by simp)
  refine ⟨underway_oneSetState _, hrows, ?_⟩
  intro hc
  have hload := loading_of_underway hrows (underway_oneSetState _)
  exact (loadable_of_completes hload hrows _ hc 0 (by decide +kernel) (by decide +kernel)).1 rfl

end NgxPlus.Diversion
