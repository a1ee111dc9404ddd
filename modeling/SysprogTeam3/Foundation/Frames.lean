import Mathlib.Data.List.Basic

/-!
# Frames of one size

A stream that was written in frames of one size.  A reader that takes just that
many elements at a time gets the frames back, one after the other.
-/

namespace SysprogTeam3.Foundation

variable {α β γ : Type} {frame : α → List γ} {decode : α → β}

/-- The stream is a sequence of frames, and these decode to the packets. -/
def Carries (frame : α → List γ) (decode : α → β) (stream : List γ) (pkts : List β) : Prop :=
  ∃ frames : List α, stream = (frames.map frame).flatten ∧ frames.map decode = pkts

theorem carries_nil : Carries frame decode [] [] := ⟨[], rfl, rfl⟩

theorem carries_frames (frames : List α) :
    Carries frame decode (frames.map frame).flatten (frames.map decode) :=
  ⟨frames, rfl, rfl⟩

theorem carries_frame (x : α) : Carries frame decode (frame x) [decode x] :=
  ⟨[x], by simp, rfl⟩

theorem Carries.append {first second : List γ} {pkts pkts' : List β}
    (h : Carries frame decode first pkts) (h' : Carries frame decode second pkts') :
    Carries frame decode (first ++ second) (pkts ++ pkts') := by
  obtain ⟨frames, rfl, rfl⟩ := h
  obtain ⟨frames', rfl, rfl⟩ := h'
  exact ⟨frames ++ frames', by simp, by simp⟩

theorem Carries.take {stream : List γ} {pkts : List β} {size : Nat}
    (h : Carries frame decode stream pkts) (hsize : ∀ x, (frame x).length = size)
    (hne : stream ≠ []) :
    ∃ x rest, pkts = decode x :: rest ∧ stream.take size = frame x ∧
      Carries frame decode (stream.drop size) rest := by
  obtain ⟨frames, rfl, rfl⟩ := h
  cases frames with
  | nil => simp at hne
  | cons x frames =>
      refine ⟨x, frames.map decode, rfl, ?_, frames, ?_, rfl⟩
      · rw [List.map_cons, List.flatten_cons, List.take_left' (hsize x)]
      · rw [List.map_cons, List.flatten_cons, List.drop_left' (hsize x)]

theorem Carries.le_length {stream : List γ} {p : β} {pkts : List β} {size : Nat}
    (h : Carries frame decode stream (p :: pkts)) (hsize : ∀ x, (frame x).length = size) :
    size ≤ stream.length := by
  obtain ⟨frames, rfl, hframes⟩ := h
  obtain ⟨x, frames, rfl, -, -⟩ := List.map_eq_cons_iff.mp hframes
  rw [List.map_cons, List.flatten_cons, List.length_append, hsize x]
  exact Nat.le_add_right _ _

end SysprogTeam3.Foundation
