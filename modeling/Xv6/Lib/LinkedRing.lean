import Mathlib

namespace Xv6.Lib

open Function (update update_of_ne update_self)

/-- The pointers of a doubly linked list that is closed by a head node, `none`. -/
structure Links (B : Type) where
  next : Option B → Option B
  prev : Option B → Option B

namespace Links

variable {B : Type} {k : Links B} {l l₁ l₂ : List B} {b : B} {x y : Option B} {q : B → Bool} {n : Nat}

def empty : Links B := ⟨fun _ => none, fun _ => none⟩

def Link (k : Links B) (x y : Option B) : Prop := k.next x = y ∧ k.prev y = x

/-- The pointers run from the head through the nodes of `l` and back to the head, in both directions. -/
structure Ring (k : Links B) (l : List B) : Prop where
  nodup : l.Nodup
  chain : (none :: (l.map some ++ [none])).IsChain k.Link

/-- The first node with the property `q`, from a node on along the given pointers up to the head. The number
bounds the nodes that are visited. -/
def find (link : Option B → Option B) (q : B → Bool) : Nat → Option B → Option B
  | 0, _ => none
  | _ + 1, none => none
  | n + 1, some b => if q b then some b else find link q n (link (some b))

theorem find_eq {link : Option B → Option B} (h : (x :: (l.map some ++ [none])).IsChain fun x y => link x = y)
    (hn : l.length < n) : find link q n (link x) = l.find? q := by
  induction l generalizing x n with
  | nil =>
      obtain ⟨n, rfl⟩ := Nat.exists_eq_add_one_of_ne_zero (Nat.ne_of_gt hn)
      have hx : link x = none := (List.isChain_cons_cons.mp h).1
      rw [hx]
      rfl
  | cons b l ih =>
      obtain ⟨n, rfl⟩ := Nat.exists_eq_add_one_of_ne_zero (Nat.ne_of_gt (Nat.lt_of_le_of_lt (Nat.zero_le _) hn))
      obtain ⟨hx, hc⟩ := List.isChain_cons_cons.mp h
      rw [hx, find, List.find?_cons]
      cases q b with
      | true => rfl
      | false => exact ih hc (by simpa using hn)

namespace Ring

theorem find_next (h : k.Ring l) (hn : l.length < n) : find k.next q n (k.next none) = l.find? q :=
  find_eq (h.chain.imp fun _ _ hk => hk.1) hn

theorem find_prev (h : k.Ring l) (hn : l.length < n) : find k.prev q n (k.prev none) = l.reverse.find? q := by
  apply find_eq _ (by simpa using hn)
  have hrev : none :: (l.reverse.map some ++ [none]) = (none :: (l.map some ++ [none])).reverse := by simp
  rw [hrev, List.isChain_reverse]
  exact h.chain.imp fun _ _ hk => hk.2

end Ring

variable [DecidableEq B]

def unlink (k : Links B) (b : B) : Links B :=
  let k : Links B := { k with prev := update k.prev (k.next (some b)) (k.prev (some b)) }
  { k with next := update k.next (k.prev (some b)) (k.next (some b)) }

def pushFront (k : Links B) (b : B) : Links B :=
  let k : Links B := { k with next := update k.next (some b) (k.next none) }
  let k : Links B := { k with prev := update k.prev (some b) none }
  let k : Links B := { k with prev := update k.prev (k.next none) (some b) }
  { k with next := update k.next none (some b) }

theorem chain_update {L : List (Option B)} (h : L.IsChain k.Link) (hx : x ∉ L.dropLast) (hy : y ∉ L.tail)
    (v w : Option B) : L.IsChain (Link ⟨update k.next x v, update k.prev y w⟩) := by
  induction L with
  | nil => exact List.isChain_nil
  | cons a L ih =>
      cases L with
      | nil => exact List.isChain_singleton a
      | cons c L =>
          obtain ⟨hac, hc⟩ := List.isChain_cons_cons.mp h
          rw [List.dropLast_cons_cons, List.mem_cons, not_or] at hx
          rw [List.tail_cons, List.mem_cons, not_or] at hy
          apply List.isChain_cons_cons.mpr
          constructor
          · constructor
            · exact (update_of_ne (Ne.symm hx.1) ..).trans hac.1
            · exact (update_of_ne (Ne.symm hy.1) ..).trans hac.2
          · exact ih hc hx.2 hy.2

namespace Ring

omit [DecidableEq B] in
theorem around (h : k.Ring (l₁ ++ b :: l₂)) :
    ∃ X Y x y, none :: l₁.map some = X ++ [x] ∧ l₂.map some ++ [none] = y :: Y ∧
      (X ++ [x]).IsChain k.Link ∧ (y :: Y).IsChain k.Link ∧ k.Link x (some b) ∧ k.Link (some b) y := by
  obtain ⟨X, x, hX⟩ : ∃ X x, none :: l₁.map some = X ++ [x] :=
    ⟨_, _, (List.dropLast_append_getLast (List.cons_ne_nil none (l₁.map some))).symm⟩
  obtain ⟨y, Y, hY⟩ := List.exists_cons_of_ne_nil (l := l₂.map some ++ [none]) (by simp)
  have hc : (X ++ x :: some b :: y :: Y).IsChain k.Link := by
    have := h.chain
    rwa [List.map_append, List.map_cons, List.append_assoc, List.cons_append, ← List.cons_append, hX, hY,
      List.append_assoc] at this
  rw [List.isChain_append_cons_cons, List.isChain_cons_cons] at hc
  exact ⟨X, Y, x, y, hX, hY, hc.1, hc.2.2.2, hc.2.1, hc.2.2.1⟩

omit [DecidableEq B] in
theorem nodup_before (h : k.Ring l) : (none :: l.map some).Nodup :=
  List.nodup_cons.mpr ⟨by simp, h.nodup.map fun _ _ => Option.some.inj⟩

omit [DecidableEq B] in
theorem nodup_after (h : k.Ring l) : (l.map some ++ [none]).Nodup :=
  List.nodup_append_comm.mp h.nodup_before

theorem unlink (h : k.Ring (l₁ ++ b :: l₂)) : (k.unlink b).Ring (l₁ ++ l₂) := by
  obtain ⟨X, Y, x, y, hX, hY, hcX, hcY, hxb, hby⟩ := h.around
  have hnb : none :: (l₁ ++ b :: l₂).map some = X ++ [x] ++ some b :: l₂.map some := by
    rw [List.map_append, List.map_cons, ← List.cons_append, hX]
  have hna : (l₁ ++ b :: l₂).map some ++ [none] = l₁.map some ++ some b :: y :: Y := by
    rw [List.map_append, List.map_cons, List.append_assoc, List.cons_append, hY]
  have hbefore := h.nodup_before
  have hafter := h.nodup_after
  rw [hnb, List.nodup_append] at hbefore
  rw [hna, List.nodup_append] at hafter
  have hy : y ≠ some b := by
    rintro rfl
    exact (List.nodup_cons.mp hafter.2.1).1 List.mem_cons_self
  have hk : k.unlink b = ⟨update k.next x y, update k.prev y x⟩ := by
    simp only [Links.unlink, hby.1, hxb.2, update_of_ne (Ne.symm hy)]
  refine ⟨h.nodup.sublist (List.Sublist.append_left (List.sublist_cons_self b l₂) l₁), ?_⟩
  rw [List.map_append, List.append_assoc, hY, ← List.cons_append, hX, hk, List.isChain_append]
  refine ⟨chain_update hcX ?_ ?_ y x, chain_update hcY ?_ ?_ y x, ?_⟩
  · rw [List.dropLast_concat]
    intro hx
    exact (List.nodup_append.mp hbefore.1).2.2 x hx x List.mem_cons_self rfl
  · rw [← hX, List.tail_cons]
    intro hm
    exact hafter.2.2 y hm y (List.mem_cons_of_mem _ List.mem_cons_self) rfl
  · rw [← hY, List.dropLast_concat]
    intro hm
    exact hbefore.2.2 x (by simp) x (List.mem_cons_of_mem _ hm) rfl
  · exact (List.nodup_cons.mp (List.nodup_cons.mp hafter.2.1).2).1
  · intro u hu v hv
    obtain rfl : x = u := by simpa using hu
    obtain rfl : y = v := by simpa using hv
    exact ⟨update_self .., update_self ..⟩

theorem pushFront (h : k.Ring l) (hb : b ∉ l) : (k.pushFront b).Ring (b :: l) := by
  obtain ⟨y, Y, hY⟩ := List.exists_cons_of_ne_nil (l := l.map some ++ [none]) (by simp)
  have hc := h.chain
  have hafter := h.nodup_after
  rw [hY] at hc hafter
  obtain ⟨hy, hcY⟩ := List.isChain_cons_cons.mp hc
  have hbY : some b ∉ y :: Y := by simpa [← hY] using hb
  have hyb : some b ≠ y := fun he => hbY (he ▸ List.mem_cons_self)
  have hk : k.pushFront b =
      ⟨update (update k.next (some b) y) none (some b), update (update k.prev (some b) none) y (some b)⟩ := by
    simp [Links.pushFront, hy.1]
  refine ⟨List.nodup_cons.mpr ⟨hb, h.nodup⟩, ?_⟩
  rw [List.map_cons, List.cons_append, hY, hk]
  refine List.isChain_cons_cons.mpr ⟨?_, List.isChain_cons_cons.mpr ⟨?_, ?_⟩⟩
  · simp [Link, update_of_ne hyb]
  · simp [Link]
  · apply chain_update (k := ⟨_, _⟩) (chain_update hcY ?_ ?_ y none)
    · rw [← hY, List.dropLast_concat]
      simp
    · exact (List.nodup_cons.mp hafter).1
    · exact fun hm => hbY ((List.dropLast_sublist _).subset hm)
    · exact fun hm => hbY (List.mem_of_mem_tail hm)

omit [DecidableEq B] in
theorem empty : (Links.empty : Links B).Ring [] :=
  ⟨List.nodup_nil, List.isChain_pair.mpr ⟨rfl, rfl⟩⟩

end Ring

end Links

end Xv6.Lib
