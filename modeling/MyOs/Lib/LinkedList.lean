import Mathlib.Data.List.Nodup
import Mathlib.Data.List.Basic

/-!
# Linked lists

`Linked next nil p l` says that following `next` from `p` visits the elements
of `l` in order and then reaches `nil`. The relation is functional in `l`, which
is what excludes cycles (`Linked.nodup`). Insertion covers both uses of it in
practice: a node put between two others, and a node put behind the last one.
-/

namespace MyOs.LinkedList

variable {α : Type*} {next next' : α → α} {nil p a b n : α} {l l' l₁ l₂ : List α}

/-- Following `next` from `p` gives the elements of `l`, then `nil`. -/
def Linked (next : α → α) (nil : α) : α → List α → Prop
  | p, [] => p = nil
  | p, a :: l => p = a ∧ a ≠ nil ∧ Linked next nil (next a) l

/-- Only the links of the elements matter. -/
theorem Linked.congr : ∀ {p : α} {l : List α}, Linked next nil p l →
    (∀ a ∈ l, next' a = next a) → Linked next' nil p l
  | _, [], h, _ => h
  | _, a :: l, h, hn => by
    refine ⟨h.1, h.2.1, ?_⟩
    rw [hn a List.mem_cons_self]
    exact h.2.2.congr fun b hb => hn b (List.mem_cons_of_mem a hb)

/-- A start has at most one list. -/
theorem Linked.unique : ∀ {p : α} {l l' : List α}, Linked next nil p l → Linked next nil p l' →
    l = l'
  | _, [], [], _, _ => rfl
  | _, [], _ :: _, h, h' => absurd (h'.1.symm.trans h) h'.2.1
  | _, _ :: _, [], h, h' => absurd (h.1.symm.trans h') h.2.1
  | _, a :: l, b :: l', h, h' => by
    obtain rfl : a = b := h.1.symm.trans h'.1
    rw [h.2.2.unique h'.2.2]

/-- The start is the first element. -/
theorem Linked.eq_headD : ∀ {p : α} {l : List α}, Linked next nil p l → p = l.headD nil
  | _, [], h => h
  | _, _ :: _, h => h.1

/-- The list from one of its elements on. -/
theorem Linked.drop : ∀ {l₁ : List α} {p : α}, Linked next nil p (l₁ ++ a :: l₂) →
    Linked next nil a (a :: l₂)
  | [], _, h => ⟨rfl, h.2⟩
  | _ :: _, _, h => Linked.drop h.2.2

/-- **No cycles**: an element met twice would start two different lists. -/
theorem Linked.nodup : ∀ {p : α} {l : List α}, Linked next nil p l → l.Nodup
  | _, [], _ => List.nodup_nil
  | _, a :: l, h => by
    refine List.nodup_cons.2 ⟨fun ha => ?_, h.2.2.nodup⟩
    obtain ⟨l₁, l₂, rfl⟩ := List.append_of_mem ha
    have hlist := Linked.unique (l := a :: (l₁ ++ a :: l₂)) ⟨rfl, h.2⟩ h.2.2.drop
    have hlen := congrArg List.length hlist
    simp only [List.length_cons, List.length_append] at hlen
    omega

/-- The element whose link is `nil` is the last one. -/
theorem Linked.eq_getLastD : ∀ {l : List α} {b : α}, Linked next nil b (b :: l) →
    a ∈ b :: l → next a = nil → a = l.getLastD b
  | [], b, _, ha, _ => by simpa using ha
  | c :: l, b, h, ha, hlast => by
    obtain ⟨hbc, hc, hl⟩ := h.2.2
    rw [List.getLastD_cons]
    rcases List.mem_cons.1 ha with rfl | ha
    · exact absurd (hbc.symm.trans hlast) hc
    · exact Linked.eq_getLastD ⟨rfl, hc, hl⟩ ha hlast

/-- **Insertion** of `n` behind `l₁.getLastD b`, the last element of `b :: l₁`. -/
theorem Linked.insert : ∀ {l₁ : List α} {b : α}, Linked next nil (next b) (l₁ ++ l₂) →
    (b :: (l₁ ++ l₂)).Nodup → n ≠ nil → next' (l₁.getLastD b) = n →
    next' n = l₂.headD nil →
    (∀ a ∈ b :: (l₁ ++ l₂), a ≠ l₁.getLastD b → next' a = next a) →
    Linked next' nil (next' b) (l₁ ++ n :: l₂)
  | [], b, h, hnd, hn, hlast, hnext, hrest => by
    have hb : b ∉ l₂ := (List.nodup_cons.1 hnd).1
    refine ⟨hlast, hn, ?_⟩
    have hhead : next b = l₂.headD nil := Linked.eq_headD h
    rw [hnext, ← hhead]
    exact Linked.congr h fun a ha =>
      hrest a (List.mem_cons_of_mem b ha) fun hab : a = b => hb (hab ▸ ha)
  | c :: l₁, b, h, hnd, hn, hlast, hnext, hrest => by
    rw [List.getLastD_cons] at hlast hrest
    obtain ⟨hb, hnd'⟩ := List.nodup_cons.1 hnd
    obtain ⟨hbc, hc, hl⟩ := h
    -- `b` keeps its link, since the insertion happens further down
    have hne : b ≠ l₁.getLastD c := by
      rintro rfl
      exact hb (List.mem_append_left _ List.getLastD_mem_cons)
    rw [hrest b List.mem_cons_self hne, hbc]
    exact ⟨rfl, hc, Linked.insert hl hnd' hn hlast hnext fun a ha =>
      hrest a (List.mem_cons_of_mem b ha)⟩

end MyOs.LinkedList
