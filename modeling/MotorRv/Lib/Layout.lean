import MotorRv.Lib.Bytes

/-!
# Records and columns as bytes

A field is a part of a record with a fixed width. A record is written field after field, and a
table column by column; reading back what was written copies the fields one by one, so a layout
loses nothing exactly when copying all its fields rebuilds the record.

A codec is a width, a way to write a field and a way to read it into a record; its one law is that
what it writes has the width. `decodeFields` of `encodeFields` is then `copyFields`, by induction
over the list of codecs, and the same over the rows of a table for `decodeColumn`. Which fields a
layout has is data, so a record type needs no round trip of its own: whether it is read back as it
was is seen by evaluating `copyFields` on it.
-/

namespace Lib

variable {ρ α : Type*}

/-- A part of a record: how it is written, and how it is put into a record when read. -/
structure FieldCodec (ρ : Type*) where
  size : ℕ
  enc : ρ → Bytes
  dec : Bytes → ρ → ρ
  length_enc : ∀ r, (enc r).length = size

/-- The record after each field of `r` was written and read into it. -/
def copyFields (fs : List (FieldCodec ρ)) (r r₀ : ρ) : ρ :=
  fs.foldl (fun acc f => f.dec (f.enc r) acc) r₀

/-! ### Records -/

def encodeFields (fs : List (FieldCodec ρ)) (r : ρ) : Bytes := fs.flatMap fun f => f.enc r

def decodeFields : List (FieldCodec ρ) → Bytes → ρ → ρ
  | [], _, r => r
  | f :: fs, b, r => decodeFields fs (b.drop f.size) (f.dec (b.take f.size) r)

theorem length_encodeFields (fs : List (FieldCodec ρ)) (r : ρ) :
    (encodeFields fs r).length = (fs.map FieldCodec.size).sum := by
  simp [encodeFields, List.length_flatMap, FieldCodec.length_enc]

theorem decodeFields_encodeFields (fs : List (FieldCodec ρ)) (r : ρ) (rest : Bytes) :
    ∀ r₀, decodeFields fs (encodeFields fs r ++ rest) r₀ = copyFields fs r r₀ := by
  induction fs with
  | nil => exact fun _ => rfl
  | cons f fs ih =>
    intro r₀
    have hlen := f.length_enc r
    simp only [decodeFields, encodeFields, List.flatMap_cons, List.append_assoc]
    rw [List.take_left' hlen, List.drop_left' hlen]
    exact ih _

/-! ### Columns -/

def encodeColumn (f : FieldCodec ρ) (rows : List ρ) : Bytes := rows.flatMap f.enc

def decodeColumn (f : FieldCodec ρ) : List ρ → Bytes → List ρ
  | [], _ => []
  | r :: rs, b => f.dec (b.take f.size) r :: decodeColumn f rs (b.drop f.size)

theorem length_encodeColumn (f : FieldCodec ρ) (rows : List ρ) :
    (encodeColumn f rows).length = f.size * rows.length := by
  simp [encodeColumn, List.length_flatMap, FieldCodec.length_enc, Nat.mul_comm]

theorem length_decodeColumn (f : FieldCodec ρ) : ∀ (rows : List ρ) (b : Bytes),
    (decodeColumn f rows b).length = rows.length
  | [], _ => rfl
  | r :: rs, b => by
    rw [decodeColumn, List.length_cons, List.length_cons, length_decodeColumn f rs]

theorem decodeColumn_encodeColumn (f : FieldCodec ρ) : ∀ (rows acc : List ρ),
    acc.length = rows.length →
      decodeColumn f acc (encodeColumn f rows) =
        List.zipWith (fun r a => f.dec (f.enc r) a) rows acc
  | [], [], _ => rfl
  | r :: rs, a :: as, h => by
    have hlen := f.length_enc r
    simp only [decodeColumn, encodeColumn, List.flatMap_cons, List.zipWith_cons_cons]
    rw [List.take_left' hlen, List.drop_left' hlen]
    exact congrArg _ (decodeColumn_encodeColumn f rs as (Nat.succ.inj h))

/-- Reading all the columns of a table copies the fields of each row. -/
theorem foldl_decodeColumn (fs : List (FieldCodec ρ)) (rows : List ρ) : ∀ acc : List ρ,
    acc.length = rows.length →
      fs.foldl (fun acc f => decodeColumn f acc (encodeColumn f rows)) acc =
        List.zipWith (copyFields fs) rows acc := by
  induction fs with
  | nil =>
    intro acc h
    refine List.ext_getElem (by simp [h]) fun i _ _ => ?_
    simp [copyFields]
  | cons f fs ih =>
    intro acc h
    rw [List.foldl_cons, ih _ ((length_decodeColumn f acc _).trans h),
      decodeColumn_encodeColumn f rows acc h]
    refine List.ext_getElem (by simp [h]) fun i _ _ => ?_
    simp [copyFields]

/-- A table whose layout loses nothing is read back as it was. -/
theorem foldl_decodeColumn_eq {fs : List (FieldCodec ρ)} {rows acc : List ρ}
    (h : acc.length = rows.length) (hcopy : ∀ r ∈ rows, ∀ r₀, copyFields fs r r₀ = r) :
    fs.foldl (fun acc f => decodeColumn f acc (encodeColumn f rows)) acc = rows := by
  rw [foldl_decodeColumn fs rows acc h]
  refine List.ext_getElem (by simp [h]) fun i hi _ => ?_
  rw [List.getElem_zipWith]
  exact hcopy _ (List.getElem_mem _) _

end Lib
