import LoxLang.Stream

/-!
A stream with limited room keeps the first bytes of what a stream without a limit keeps. Cutting a
stream off after some bytes and writing to it can be done in either order.
-/
namespace LoxLang.Stream

def limit (n : Nat) (s : Stream) : Stream :=
  { s with written := s.written.extract 0 n, capacity := some n }

structure Grows (s t : Stream) : Prop where
  capacity : t.capacity = s.capacity
  flushFails : t.flushFails = s.flushFails
  written : ∃ more, t.written = s.written ++ more

theorem Grows.refl (s : Stream) : Grows s s := ⟨rfl, rfl, ByteArray.empty, by simp⟩

section

variable {s t u : Stream} {n : Nat} {text : String}

theorem Grows.trans (h : Grows s t) (h' : Grows t u) : Grows s u := by
  obtain ⟨more, hmore⟩ := h.written
  obtain ⟨more', hmore'⟩ := h'.written
  refine ⟨h'.capacity.trans h.capacity, h'.flushFails.trans h.flushFails, more ++ more', ?_⟩
  rw [hmore', hmore, ByteArray.append_assoc]

theorem grows_write (s : Stream) (text : String) : Grows s (s.write text) :=
  ⟨rfl, rfl, s.accepted text, rfl⟩

theorem Grows.size_le (h : Grows s t) : s.written.size ≤ t.written.size := by
  obtain ⟨more, hmore⟩ := h.written
  rw [hmore, ByteArray.size_append]
  omega

/-- What is written later does not change the first bytes. -/
theorem Grows.extract_eq (h : Grows s t) (hfull : n ≤ s.written.size) :
    t.written.extract 0 n = s.written.extract 0 n := by
  obtain ⟨more, hmore⟩ := h.written
  have hnone : n - s.written.size = 0 := by omega
  rw [hmore, ByteArray.extract_append, Nat.zero_sub, hnone, ByteArray.extract_same,
    ByteArray.append_empty]

/-- The size of an unlimited stream after a write. -/
theorem size_write (h : s.capacity = none) (text : String) :
    (s.write text).written.size = s.written.size + text.utf8ByteSize := by
  rw [written_write_of_capacity_eq_none h, ByteArray.size_append]
  rfl

/-- It is the same to cut a stream off before a write or after it. -/
theorem write_limit (h : s.capacity = none) (n : Nat) (text : String) :
    (s.limit n).write text = (s.write text).limit n := by
  have hsize : min n s.written.size - 0 = min n s.written.size := Nat.sub_zero _
  have hroom : n - (s.written.extract 0 n).size = n - s.written.size := by
    rw [ByteArray.size_extract, hsize]
    omega
  have hwritten : s.written.extract 0 n ++ text.toUTF8.extract 0 (n - s.written.size) =
      (s.written ++ text.toUTF8).extract 0 n := by
    rw [ByteArray.extract_append, Nat.zero_sub]
  unfold write accepted limit
  simp only [h, hroom, hwritten]

/-- What fits into an unlimited stream up to some size is what fits into the limited one. -/
theorem fits_limit (h : s.capacity = none) (hroom : s.written.size ≤ n) (text : String) :
    (s.limit n).fits text = decide ((s.write text).written.size ≤ n) := by
  have hsize : (s.written.extract 0 n).size = s.written.size := by
    rw [ByteArray.size_extract]
    omega
  unfold fits limit
  simp only [hsize, size_write h]

end

end LoxLang.Stream
