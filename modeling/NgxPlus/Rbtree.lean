import Mathlib.Order.Lattice
import Mathlib.Data.List.Perm.Basic

/-!
# nginx red-black trees (`ngx_rbtree.c`)

| here | there |
| --- | --- |
| `Node`                | `ngx_rbtree_node_t` up to the parent pointer; `sentinel` is the shared sentinel |
| `Frame`, `descend`    | the walk of `ngx_rbtree_insert_value` (`ngx_rbtree.c:100-123`), the parent pointers kept as the list of frames above the node |
| `rebalance`           | the `while` loop of `ngx_rbtree_insert` (`ngx_rbtree.c:47-85`), rotations included |
| `ngxRbtreeInsert`     | `ngx_rbtree_insert` (`ngx_rbtree.c:25-88`) |
| `ngxRbtreeLookup4diversion` | `ngx_rbtree_lookup_4diversion` (`ngx_lua_diversion_module.cpp:2026-2061`) |

A key may occur more than once: an equal key goes to the right on insertion, and a later
rotation may move it to the left, so the order of a tree is the weak one. `NgxRbtree`
carries it as a field; `insert` keeps it because rotations do not touch the in-order
sequence (`toList_rebalance`).
-/

namespace NgxPlus.Rbtree

inductive Color
  | red
  | black
deriving DecidableEq, Repr

inductive Node (α : Type)
  | sentinel : Node α
  | node (c : Color) (left : Node α) (key : α) (right : Node α) : Node α
deriving DecidableEq, Repr

variable {α : Type}

/-- The keys, in order. -/
def Node.toList : Node α → List α
  | .sentinel => []
  | .node _ l k r => l.toList ++ k :: r.toList

def Node.isRed : Node α → Bool
  | .node .red _ _ _ => true
  | _ => false

/-- `ngx_rbt_black`. -/
def Node.blacken : Node α → Node α
  | .sentinel => .sentinel
  | .node _ l k r => .node .black l k r

@[simp] theorem toList_blacken (t : Node α) : t.blacken.toList = t.toList := by
  cases t <;> rfl

/-- One step up: whether the node hangs `left` of its parent, the parent's colour and
key, and the parent's other child. -/
structure Frame (α : Type) where
  left : Bool
  color : Color
  key : α
  sibling : Node α

/-- The parent with `t` put back in its place, coloured `c`. -/
def Frame.plug (f : Frame α) (c : Color) (t : Node α) : Node α :=
  if f.left then .node c t f.key f.sibling else .node c f.sibling f.key t

/-- Put `t` back under all its parents. -/
def plugAll : Node α → List (Frame α) → Node α
  | t, [] => t
  | t, f :: fs => plugAll (f.plug f.color t) fs

/-- The in-order sequence around a node, for any contents of the node. -/
def around : List (Frame α) → List α → List α
  | [], l => l
  | f :: fs, l =>
    around fs (if f.left then l ++ f.key :: f.sibling.toList else f.sibling.toList ++ f.key :: l)

theorem toList_plug (f : Frame α) (c : Color) (t : Node α) :
    (f.plug c t).toList =
      if f.left then t.toList ++ f.key :: f.sibling.toList
      else f.sibling.toList ++ f.key :: t.toList := by
  unfold Frame.plug; split <;> rfl

theorem toList_plugAll (fs : List (Frame α)) (t : Node α) :
    (plugAll t fs).toList = around fs t.toList := by
  induction fs generalizing t with
  | nil => rfl
  | cons f fs ih => rw [plugAll, ih, toList_plug]; rfl

/-- `while (node != *root && ngx_rbt_is_red(node->parent))`. A red parent is never the
root, so the case of a red parent without a grandparent stops the loop here. -/
def rebalance : Node α → List (Frame α) → Node α
  | t, [] => t
  | t, [p] => p.plug p.color t
  | t, p :: g :: fs =>
    if p.color = .black then plugAll t (p :: g :: fs)
    else if g.sibling.isRed then
      -- recolour and go on from the grandparent
      rebalance ({ g with sibling := g.sibling.blacken }.plug .red (p.plug .black t)) fs
    else match g.left, p.left, t with
      | true, true, t => plugAll (.node .black t p.key (.node .red p.sibling g.key g.sibling)) fs
      | true, false, .node _ l k r =>
        plugAll (.node .black (.node .red p.sibling p.key l) k (.node .red r g.key g.sibling)) fs
      | false, true, .node _ l k r =>
        plugAll (.node .black (.node .red g.sibling g.key l) k (.node .red r p.key p.sibling)) fs
      | false, false, t => plugAll (.node .black (.node .red g.sibling g.key p.sibling) p.key t) fs
      | _, _, .sentinel => plugAll t (p :: g :: fs)

/-- Rotations and recolouring leave the in-order sequence alone. -/
theorem toList_rebalance (t : Node α) (fs : List (Frame α)) :
    (rebalance t fs).toList = around fs t.toList := by
  fun_induction rebalance t fs with
  | case1 t => rfl
  | case2 t p => rw [toList_plug]; rfl
  | case3 t p g fs hp => exact toList_plugAll _ _
  | case4 t p g fs hp hg ih =>
    rw [ih]
    simp only [around, toList_plug, toList_blacken]
  | case5 p g fs hp hg t hpl hgl => simp [toList_plugAll, around, Node.toList, hgl, hpl]
  | case6 p g fs hp hg c l k r hpl hgl => simp [toList_plugAll, around, Node.toList, hgl, hpl]
  | case7 p g fs hp hg c l k r hpl hgl => simp [toList_plugAll, around, Node.toList, hgl, hpl]
  | case8 p g fs hp hg t hpl hgl => simp [toList_plugAll, around, Node.toList, hgl, hpl]
  | case9 p g fs hp hg => exact toList_plugAll _ _

section Order

variable [LinearOrder α]

/-- `p = (node->key < temp->key) ? &temp->left : &temp->right`, down to the sentinel. -/
def descend (key : α) : Node α → List (Frame α) → List (Frame α)
  | .sentinel, fs => fs
  | .node c l k r, fs =>
    if key < k then descend key l (⟨true, c, k, r⟩ :: fs)
    else descend key r (⟨false, c, k, l⟩ :: fs)

def insertRoot (root : Node α) (key : α) : Node α :=
  match root with
  | .sentinel => .node .black .sentinel key .sentinel
  | root => (rebalance (.node .red .sentinel key .sentinel) (descend key root [])).blacken

def lookup (key : α) : Node α → Bool
  | .sentinel => false
  | .node _ l k r => if key < k then lookup key l else if key > k then lookup key r else true

/-- Search-tree order, duplicates allowed on either side. -/
def Ordered (t : Node α) : Prop := t.toList.Pairwise (· ≤ ·)

theorem ordered_node {c : Color} {l r : Node α} {k : α} :
    Ordered (.node c l k r) ↔
      Ordered l ∧ Ordered r ∧ (∀ x ∈ l.toList, x ≤ k) ∧ (∀ x ∈ r.toList, k ≤ x) := by
  simp only [Ordered, Node.toList, List.pairwise_append, List.pairwise_cons, List.mem_cons,
    forall_eq_or_imp]
  constructor
  · rintro ⟨hl, ⟨hk, hr⟩, hx⟩
    exact ⟨hl, hr, fun x h => (hx x h).1, hk⟩
  · rintro ⟨hl, hr, hlk, hk⟩
    exact ⟨hl, ⟨hk, hr⟩, fun x h => ⟨hlk x h, fun y hy => le_trans (hlk x h) (hk y hy)⟩⟩

theorem lookup_iff {t : Node α} (h : Ordered t) (key : α) : lookup key t ↔ key ∈ t.toList := by
  induction t with
  | sentinel => simp [lookup, Node.toList]
  | node c l k r ihl ihr =>
    obtain ⟨hl, hr, hlk, hkr⟩ := ordered_node.1 h
    simp only [lookup, Node.toList, List.mem_append, List.mem_cons]
    split
    · rename_i hlt
      rw [ihl hl]
      constructor
      · exact Or.inl
      · rintro (h | rfl | h)
        · exact h
        · exact absurd hlt (lt_irrefl _)
        · exact absurd (hkr _ h) (not_le.2 hlt)
    · split
      · rename_i hgt
        rw [ihr hr]
        constructor
        · exact fun h => Or.inr (Or.inr h)
        · rintro (h | rfl | h)
          · exact absurd (hlk _ h) (not_le.2 hgt)
          · exact absurd hgt (lt_irrefl _)
          · exact h
      · rename_i h1 h2
        have : key = k := le_antisymm (not_lt.1 h2) (not_lt.1 h1)
        simp [this]

/-- The new key is put between two halves of the old in-order sequence, everything before
it at most and everything after it at least the key. -/
theorem around_descend {t : Node α} (h : Ordered t) (key : α) (fs : List (Frame α)) :
    ∃ a b, t.toList = a ++ b ∧ (∀ x ∈ a, x ≤ key) ∧ (∀ x ∈ b, key ≤ x) ∧
      ∀ l, around (descend key t fs) l = around fs (a ++ l ++ b) := by
  induction t generalizing fs with
  | sentinel => exact ⟨[], [], rfl, by simp, by simp, fun l => by simp [descend]⟩
  | node c l k r ihl ihr =>
    obtain ⟨hl, hr, hlk, hkr⟩ := ordered_node.1 h
    simp only [descend]
    split
    · rename_i hlt
      obtain ⟨a, b, e, ha, hb, hc⟩ := ihl hl (⟨true, c, k, r⟩ :: fs)
      refine ⟨a, b ++ k :: r.toList, by simp [Node.toList, e], ha, ?_, fun x => ?_⟩
      · intro x hx
        simp only [List.mem_append, List.mem_cons] at hx
        rcases hx with hx | rfl | hx
        · exact hb x hx
        · exact le_of_lt hlt
        · exact le_trans (le_of_lt hlt) (hkr x hx)
      · rw [hc]; simp [around]
    · rename_i hge
      obtain ⟨a, b, e, ha, hb, hc⟩ := ihr hr (⟨false, c, k, l⟩ :: fs)
      refine ⟨l.toList ++ k :: a, b, by simp [Node.toList, e], ?_, hb, fun x => ?_⟩
      · intro x hx
        simp only [List.mem_append, List.mem_cons] at hx
        rcases hx with hx | rfl | hx
        · exact le_trans (hlk x hx) (not_lt.1 hge)
        · exact not_lt.1 hge
        · exact ha x hx
      · rw [hc]; simp [around]

theorem toList_insertRoot {t : Node α} (h : Ordered t) (key : α) :
    ∃ a b, t.toList = a ++ b ∧ (∀ x ∈ a, x ≤ key) ∧ (∀ x ∈ b, key ≤ x) ∧
      (insertRoot t key).toList = a ++ key :: b := by
  cases t with
  | sentinel => exact ⟨[], [], rfl, by simp, by simp, rfl⟩
  | node c l k r =>
    obtain ⟨a, b, e, ha, hb, hc⟩ := around_descend h key []
    refine ⟨a, b, e, ha, hb, ?_⟩
    rw [insertRoot, toList_blacken, toList_rebalance, hc]
    · simp [around, Node.toList]
    · intro h; cases h

theorem ordered_insertRoot {t : Node α} (h : Ordered t) (key : α) : Ordered (insertRoot t key) := by
  obtain ⟨a, b, e, ha, hb, hc⟩ := toList_insertRoot h key
  unfold Ordered at h ⊢
  rw [e, List.pairwise_append] at h
  rw [hc, List.pairwise_append]
  refine ⟨h.1, List.pairwise_cons.2 ⟨hb, h.2.1⟩, fun x hx y hy => ?_⟩
  rcases List.mem_cons.1 hy with rfl | hy
  · exact ha x hx
  · exact h.2.2 x hx y hy

end Order

/-! ## The tree as the module handles it -/

/-- `ngx_rbtree_t`, only ever built by `ngx_rbtree_init` and `ngx_rbtree_insert`. -/
structure NgxRbtree (α : Type) [LinearOrder α] where
  root : Node α
  ordered : Ordered root

variable [LinearOrder α]

/-- `ngx_rbtree_init`. -/
def NgxRbtree.init : NgxRbtree α := ⟨.sentinel, List.Pairwise.nil⟩

/-- The keys loaded into the tree. -/
def NgxRbtree.keys (t : NgxRbtree α) : List α := t.root.toList

def ngxRbtreeInsert (t : NgxRbtree α) (key : α) : NgxRbtree α :=
  ⟨insertRoot t.root key, ordered_insertRoot t.ordered key⟩

/-- `ngx_rbtree_lookup_4diversion(tree, key) != NULL`. -/
def ngxRbtreeLookup4diversion (t : NgxRbtree α) (key : α) : Bool := lookup key t.root

@[simp] theorem keys_init : (NgxRbtree.init : NgxRbtree α).keys = [] := rfl

@[simp] theorem mem_keys_insert (t : NgxRbtree α) (key x : α) :
    x ∈ (ngxRbtreeInsert t key).keys ↔ x = key ∨ x ∈ t.keys := by
  obtain ⟨a, b, e, -, -, hc⟩ := toList_insertRoot t.ordered key
  show x ∈ (insertRoot t.root key).toList ↔ x = key ∨ x ∈ t.root.toList
  rw [hc, e]
  simp only [List.mem_append, List.mem_cons]
  exact or_left_comm

theorem lookup4diversion_iff (t : NgxRbtree α) (key : α) :
    ngxRbtreeLookup4diversion t key = true ↔ key ∈ t.keys := lookup_iff t.ordered key

end NgxPlus.Rbtree
