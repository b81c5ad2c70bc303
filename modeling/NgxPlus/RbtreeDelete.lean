import Mathlib.Data.List.Nodup
import NgxPlus.Rbtree

/-!
# Removing a node (`ngx_rbtree_delete`)

| here | there |
| --- | --- |
| `locate`          | the node pointer and its parents, which the caller has |
| `rbtreeMin`       | `ngx_rbtree_min`, with the parents down to the node found |
| `Fixed`, `fixSibling` | one round of the fixup below a black sibling (`ngx_rbtree.c:276-293`, `:306-323`) |
| `fixup`           | the `while` loop (`:262-327`) |
| `deleteRoot`      | `ngx_rbtree_delete` (`:155-330`) |

The two halves of the loop mirror each other; `Frame.left` says which one it is. A black
node that is not the root has a sibling, so the sibling is the sentinel in no tree that the
other operations build; the model then goes on upwards.
-/

namespace NgxPlus.Rbtree

variable {α : Type}

/-- What a round does: it ends the loop, or goes on from the parent. -/
inductive Fixed (α : Type)
  | done (t : Node α)
  | up (t : Node α)

/-- The subtree of the parent, after the round. -/
def Fixed.node : Fixed α → Node α
  | .done t => t
  | .up t => t

/-- The round below a black sibling `w`; the parent has colour `pc` and key `pk`. -/
def fixSibling (left : Bool) (pc : Color) (pk : α) (temp w : Node α) : Fixed α :=
  match w with
  | .sentinel => .up (if left then .node pc temp pk w else .node pc w pk temp)
  | .node _ wl wk wr =>
    if !wl.isRed && !wr.isRed then
      .up (if left then .node pc temp pk (.node .red wl wk wr) else .node pc (.node .red wl wk wr) pk temp)
    else if left then
      match wl, wr.isRed with
      -- the near child is red and the far one is not: it is rotated above `w` first
      | .node _ wll wlk wlr, false =>
        .done (.node pc (.node .black temp pk wll) wlk (.node .black wlr wk wr))
      | _, _ => .done (.node pc (.node .black temp pk wl) wk wr.blacken)
    else
      match wr, wl.isRed with
      | .node _ wrl wrk wrr, false =>
        .done (.node pc (.node .black wl wk wrl) wrk (.node .black wrr pk temp))
      | _, _ => .done (.node pc wl.blacken wk (.node .black wr pk temp))

def fixup : Node α → List (Frame α) → Node α
  | t, [] => t.blacken
  | t, p :: fs =>
    if t.isRed then plugAll t.blacken (p :: fs)
    else match p.sibling with
      | .node .red wl wk wr =>
        -- The rotation puts `w` above the parent, which becomes red: going on from the parent
        -- ends the loop there.
        let w := if p.left then wl else wr
        let f : Frame α := ⟨p.left, .black, wk, if p.left then wr else wl⟩
        match fixSibling p.left .red p.key t w with
        | .done t' => (plugAll t' (f :: fs)).blacken
        | .up t' => plugAll t'.blacken (f :: fs)
      | w =>
        match fixSibling p.left p.color p.key t w with
        | .done t' => (plugAll t' fs).blacken
        | .up t' => fixup t' fs

def rbtreeMin (c : Color) (l : Node α) (k : α) (r : Node α) (fs : List (Frame α)) :
    (Color × α × Node α) × List (Frame α) :=
  match l with
  | .sentinel => ((c, k, r), fs)
  | .node c' l' k' r' => rbtreeMin c' l' k' r' (⟨true, c, k, r⟩ :: fs)

/-- The node coloured `c` with children `l` and `r`, below the parents `fs`. -/
def deleteAt (c : Color) (l r : Node α) (fs : List (Frame α)) : Node α :=
  match l, r with
  | .sentinel, temp | temp, .sentinel =>
    if fs.isEmpty then temp.blacken
    else if c = .red then plugAll temp fs
    else fixup temp fs
  | l, .node rc rl rk rr =>
    let ((sc, sk, temp), inner) := rbtreeMin rc rl rk rr []
    let fs := inner ++ ⟨false, c, sk, l⟩ :: fs
    if sc = .red then plugAll temp fs else fixup temp fs

/-! ## The in-order sequence -/

theorem toList_fixSibling (left : Bool) (pc : Color) (pk : α) (temp w : Node α) :
    (fixSibling left pc pk temp w).node.toList =
      if left then temp.toList ++ pk :: w.toList else w.toList ++ pk :: temp.toList := by
  unfold fixSibling
  cases w with
  | sentinel => cases left <;> rfl
  | node c wl wk wr =>
    simp only
    split
    · cases left <;> rfl
    · cases left with
      | true => split <;> split <;> simp_all [Fixed.node, Node.toList]
      | false => split <;> split <;> simp_all [Fixed.node, Node.toList]

/-- A round that ends the loop or goes on leaves the parent's sequence as it was. -/
theorem toList_round {p : Frame α} {t w : Node α} {pc : Color} {r : Fixed α}
    (h : fixSibling p.left pc p.key t w = r) :
    r.node.toList = if p.left then t.toList ++ p.key :: w.toList else w.toList ++ p.key :: t.toList := by
  rw [← h, toList_fixSibling]

theorem toList_fixup (t : Node α) (fs : List (Frame α)) : (fixup t fs).toList = around fs t.toList := by
  fun_induction fixup t fs with
  | case1 t => exact toList_blacken t
  | case2 t p fs hred => rw [toList_plugAll, toList_blacken]
  | case3 t p fs hred wl wk wr hw w f t' hfix =>
    have hr := toList_round hfix
    simp only [Fixed.node] at hr
    rw [toList_blacken, toList_plugAll, hr, around, around, hw]
    cases hl : p.left <;> simp [f, w, hl, Node.toList]
  | case4 t p fs hred wl wk wr hw w f t' hfix =>
    have hr := toList_round hfix
    simp only [Fixed.node] at hr
    rw [toList_plugAll, toList_blacken, hr, around, around, hw]
    cases hl : p.left <;> simp [f, w, hl, Node.toList]
  | case5 t p fs hred hw t' hfix =>
    rw [toList_blacken, toList_plugAll, around]
    exact congrArg _ (toList_round hfix)
  | case6 t p fs hred hw t' hfix ih =>
    rw [ih, around]
    exact congrArg _ (toList_round hfix)

/-- The sequence around a node is the same before and after it. -/
theorem around_eq (fs : List (Frame α)) : ∃ a b, ∀ l, around fs l = a ++ l ++ b := by
  induction fs with
  | nil => exact ⟨[], [], fun l => by simp [around]⟩
  | cons f fs ih =>
    obtain ⟨a, b, h⟩ := ih
    cases hl : f.left with
    | true => exact ⟨a, f.key :: (f.sibling.toList ++ b), fun l => by simp [around, hl, h]⟩
    | false => exact ⟨a ++ f.sibling.toList ++ [f.key], b, fun l => by simp [around, hl, h]⟩

theorem around_append (as bs : List (Frame α)) (l : List α) : around (as ++ bs) l = around bs (around as l) := by
  induction as generalizing l with
  | nil => rfl
  | cons a as ih => exact ih _

theorem around_rbtreeMin (c : Color) (l : Node α) (k : α) (r : Node α) (fs : List (Frame α)) :
    let m := rbtreeMin c l k r fs
    ∃ rest, l.toList ++ k :: r.toList = m.1.2.1 :: rest ∧ around m.2 m.1.2.2.toList = around fs rest := by
  fun_induction rbtreeMin c l k r fs with
  | case1 c k r fs => exact ⟨r.toList, rfl, rfl⟩
  | case2 c k r fs c' l' k' r' ih =>
    obtain ⟨rest, h1, h2⟩ := ih
    refine ⟨rest ++ k :: r.toList, ?_, ?_⟩
    · rw [Node.toList, h1, List.cons_append]
    · rw [h2, around]
      simp

theorem toList_deleteAt (c : Color) (l r : Node α) (fs : List (Frame α)) :
    (deleteAt c l r fs).toList = around fs (l.toList ++ r.toList) := by
  have hone : ∀ temp : Node α, (if fs.isEmpty then temp.blacken else if c = .red then plugAll temp fs
      else fixup temp fs).toList = around fs temp.toList := by
    intro temp
    split
    · rename_i he
      rw [List.isEmpty_iff.1 he, toList_blacken]
      rfl
    · split
      · exact toList_plugAll fs temp
      · exact toList_fixup temp fs
  cases l with
  | sentinel => exact hone r
  | node lc ll lk lr =>
    cases r with
    | sentinel =>
      refine (hone _).trans ?_
      simp [Node.toList]
    | node rc rl rk rr =>
      obtain ⟨rest, h1, h2⟩ := around_rbtreeMin rc rl rk rr []
      have hall : around ((rbtreeMin rc rl rk rr []).2 ++
          ⟨false, c, (rbtreeMin rc rl rk rr []).1.2.1, .node lc ll lk lr⟩ :: fs)
          (rbtreeMin rc rl rk rr []).1.2.2.toList =
            around fs ((Node.node lc ll lk lr).toList ++ (Node.node rc rl rk rr).toList) := by
        have hr : (Node.node rc rl rk rr).toList = _ := h1
        rw [around_append, h2, hr]
        rfl
      unfold deleteAt
      simp only
      split
      · rw [toList_plugAll]
        exact hall
      · rw [toList_fixup]
        exact hall

section Order

variable [LinearOrder α]

/-- The node with key `key`: its colour and children, and its parents. -/
def locate (key : α) : Node α → List (Frame α) → Option ((Color × Node α × Node α) × List (Frame α))
  | .sentinel, _ => none
  | .node c l k r, fs =>
    if key < k then locate key l (⟨true, c, k, r⟩ :: fs)
    else if key > k then locate key r (⟨false, c, k, l⟩ :: fs)
    else some ((c, l, r), fs)

def deleteRoot (root : Node α) (key : α) : Node α :=
  match locate key root [] with
  | some ((c, l, r), fs) => deleteAt c l r fs
  | none => root

theorem around_locate {key : α} {t : Node α} {fs : List (Frame α)} {c : Color} {l r : Node α}
    {fs' : List (Frame α)} (h : locate key t fs = some ((c, l, r), fs')) :
    around fs' (l.toList ++ key :: r.toList) = around fs t.toList := by
  induction t generalizing fs with
  | sentinel => cases h
  | node c₀ l₀ k₀ r₀ ihl ihr =>
    rw [locate] at h
    split at h
    · exact ihl h
    · split at h
      · exact ihr h
      · rename_i h1 h2
        obtain rfl : key = k₀ := le_antisymm (not_lt.1 h2) (not_lt.1 h1)
        simp only [Option.some.injEq, Prod.mk.injEq] at h
        obtain ⟨⟨rfl, rfl, rfl⟩, rfl⟩ := h
        rfl

theorem locate_of_lookup {key : α} {t : Node α} (h : lookup key t = true) (fs : List (Frame α)) :
    ∃ x, locate key t fs = some x := by
  induction t generalizing fs with
  | sentinel => cases h
  | node c l k r ihl ihr =>
    rw [lookup] at h
    rw [locate]
    split
    · rename_i h1
      rw [if_pos h1] at h
      exact ihl h _
    · rename_i h1
      rw [if_neg h1] at h
      split
      · rename_i h2
        rw [if_pos h2] at h
        exact ihr h _
      · exact ⟨_, rfl⟩

/-- Deleting takes one occurrence of the key out of the sequence. -/
theorem toList_deleteRoot {t : Node α} (h : Ordered t) {key : α} (hk : key ∈ t.toList) :
    ∃ a b, t.toList = a ++ key :: b ∧ (deleteRoot t key).toList = a ++ b := by
  obtain ⟨⟨⟨c, l, r⟩, fs⟩, hx⟩ := locate_of_lookup ((lookup_iff h key).2 hk) []
  obtain ⟨a, b, hab⟩ := around_eq fs
  have ht : t.toList = around fs (l.toList ++ key :: r.toList) := (around_locate hx).symm
  refine ⟨a ++ l.toList, r.toList ++ b, ?_, ?_⟩
  · rw [ht, hab]
    simp
  · rw [deleteRoot, hx]
    simp only
    rw [toList_deleteAt, hab]
    simp

theorem deleteRoot_of_notMem {t : Node α} {key : α} (hk : key ∉ t.toList) :
    deleteRoot t key = t := by
  have hno : locate key t [] = none := by
    cases hx : locate key t [] with
    | none => rfl
    | some x =>
      obtain ⟨⟨c, l, r⟩, fs⟩ := x
      obtain ⟨a, b, hab⟩ := around_eq fs
      refine absurd ?_ hk
      have ht : t.toList = around fs (l.toList ++ key :: r.toList) := (around_locate hx).symm
      rw [ht, hab]
      simp
  rw [deleteRoot, hno]

theorem sublist_deleteRoot {t : Node α} (h : Ordered t) (key : α) :
    (deleteRoot t key).toList.Sublist t.toList := by
  by_cases hk : key ∈ t.toList
  · obtain ⟨a, b, h1, h2⟩ := toList_deleteRoot h hk
    rw [h1, h2]
    exact (List.Sublist.refl a).append (List.sublist_cons_self key b)
  · rw [deleteRoot_of_notMem hk]

/-- `ngx_rbtree_delete(tree, node)`, for the node with key `key`. -/
def ngxRbtreeDelete (t : NgxRbtree α) (key : α) : NgxRbtree α :=
  ⟨deleteRoot t.root key, t.ordered.sublist (sublist_deleteRoot t.ordered key)⟩

/-- In a tree without duplicates the node deleted is the only one with its key. -/
theorem mem_keys_delete {t : NgxRbtree α} (hd : t.keys.Nodup) (key x : α) :
    x ∈ (ngxRbtreeDelete t key).keys ↔ x ∈ t.keys ∧ x ≠ key := by
  change x ∈ (deleteRoot t.root key).toList ↔ x ∈ t.root.toList ∧ x ≠ key
  by_cases hk : key ∈ t.root.toList
  · obtain ⟨a, b, h1, h2⟩ := toList_deleteRoot t.ordered hk
    have hnd : (a ++ key :: b).Nodup := h1 ▸ hd
    have hne : key ∉ a ++ b := (List.nodup_middle.1 hnd).notMem
    rw [h1, h2]
    simp only [List.mem_append, List.mem_cons]
    constructor
    · intro hx
      refine ⟨by tauto, ?_⟩
      rintro rfl
      exact hne (List.mem_append.2 hx)
    · rintro ⟨hx, hxk⟩
      tauto
  · rw [deleteRoot_of_notMem hk]
    constructor
    · intro hx
      exact ⟨hx, fun he => hk (he ▸ hx)⟩
    · exact fun hx => hx.1

theorem nodup_keys_delete {t : NgxRbtree α} (hd : t.keys.Nodup) (key : α) :
    (ngxRbtreeDelete t key).keys.Nodup :=
  hd.sublist (sublist_deleteRoot t.ordered key)

theorem nodup_keys_insert {t : NgxRbtree α} (hd : t.keys.Nodup) {key : α} (hk : key ∉ t.keys) :
    (ngxRbtreeInsert t key).keys.Nodup := by
  obtain ⟨a, b, e, -, -, hc⟩ := toList_insertRoot t.ordered key
  change (insertRoot t.root key).toList.Nodup
  rw [hc, List.nodup_middle]
  refine List.nodup_cons.2 ⟨?_, ?_⟩
  · rw [← e]
    exact hk
  · rw [← e]
    exact hd

end Order

end NgxPlus.Rbtree
