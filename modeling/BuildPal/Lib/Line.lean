import Mathlib.Data.List.Infix
import Mathlib.Data.List.Nodup
/-!
# Lines

Who arrives stands at the end of a line, who comes back at its head, and the
line is called from its head. Nobody is passed by one who arrived later.
-/
namespace BuildPal.Lib
variable {α : Type*} {arrived queue : List α} {back back' called called' : α → Prop} {x : α}

/-- First stand those who came back. The others are the last that arrived, in order, and have not been called. -/
def InLine (arrived : List α) (back called : α → Prop) (queue : List α) : Prop :=
  ∃ returned waiting, queue = returned ++ waiting ∧ waiting <:+ arrived ∧ (∀ x ∈ returned, back x) ∧
    ∀ x ∈ waiting, ¬ called x

namespace InLine

theorem empty : InLine arrived back called [] := ⟨[], [], rfl, List.nil_suffix, by simp, by simp⟩

theorem arrive (h : InLine arrived back called queue) (hx : ¬ called x) :
    InLine (arrived ++ [x]) back called (queue ++ [x]) := by
  obtain ⟨returned, waiting, rfl, ⟨gone, rfl⟩, hreturned, hwaiting⟩ := h
  refine ⟨returned, waiting ++ [x], by rw [List.append_assoc], ⟨gone, by rw [List.append_assoc]⟩, hreturned, ?_⟩
  intro y hy
  rcases List.mem_append.1 hy with hy | hy
  · exact hwaiting y hy
  · rwa [List.mem_singleton.1 hy]

theorem comeBack (h : InLine arrived back called queue) (hx : back x) : InLine arrived back called (x :: queue) := by
  obtain ⟨returned, waiting, rfl, horder, hreturned, hwaiting⟩ := h
  exact ⟨x :: returned, waiting, rfl, horder, by simpa using ⟨hx, hreturned⟩, hwaiting⟩

theorem mono (h : InLine arrived back called queue) (hback : ∀ x, back x → back' x)
    (hcalled : ∀ x, called' x → called x) : InLine arrived back' called' queue := by
  obtain ⟨returned, waiting, rfl, horder, hreturned, hwaiting⟩ := h
  exact ⟨returned, waiting, rfl, horder, fun x hx => hback x (hreturned x hx),
    fun x hx hc => hwaiting x hx (hcalled x hc)⟩

/-- The first of the line are called. -/
theorem call (h : InLine arrived back called queue) (hnodup : arrived.Nodup) (hback : ∀ x, back x → called x) (n : ℕ)
    (hcalled : ∀ x, called' x → called x ∨ x ∈ queue.take n) : InLine arrived back called' (queue.drop n) := by
  obtain ⟨returned, waiting, rfl, horder, hreturned, hwaiting⟩ := h
  refine ⟨returned.drop n, waiting.drop (n - returned.length), List.drop_append, ?_, ?_, ?_⟩
  · exact (List.drop_suffix _ _).trans horder
  · exact fun x hx => hreturned x (List.mem_of_mem_drop hx)
  · intro x hx hc
    have hmem : x ∈ waiting := List.mem_of_mem_drop hx
    rcases hcalled x hc with hc | htaken
    · exact hwaiting x hmem hc
    · rw [List.take_append] at htaken
      rcases List.mem_append.1 htaken with htaken | htaken
      · -- those who came back have been called before
        exact hwaiting x hmem (hback x (hreturned x (List.mem_of_mem_take htaken)))
      · exact List.disjoint_take_drop (hnodup.sublist horder.sublist) le_rfl htaken hx

end InLine

end BuildPal.Lib
