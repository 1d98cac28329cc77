import Alto.Portal.JsonWrite
import Alto.Verify.Text

/-!
# Which JSON responses are delivered

A `Write` callback puts the whole rest of its text into one block or nothing at all, and the content
reader takes an empty block for the end of the data. So a response arrives whole only if it fits
into the first block (`respond_whole_iff`); otherwise the client receives nothing.
-/

namespace Alto.Portal

open Server

theorem JsonHandler.write_eq (handler : JsonHandler) : handler.write = JsonResponse.write := by
  cases handler <;> rfl

/-! ## The stream -/

theorem put_fits {size : Nat} {text : List Char} (h : text.length ≤ size) :
    ResponseStream.put { size } text = { size, written := text } := by
  simp [ResponseStream.put, h]

theorem put_exhausted {size : Nat} {text : List Char} (h : size < text.length) :
    ResponseStream.put { size } text =
      { size, written := text.take size, good := false } := by
  simp [ResponseStream.put, Nat.not_le.2 h]

/-! ## The callback -/

theorem write_done {data : JsonResponse} (h : data.len ≤ data.pos) (max : Nat) :
    data.write max = (data, none) := by
  simp [JsonResponse.write, h]

/-- A text that fits is written whole. -/
theorem write_fits {data : JsonResponse} {max : Nat} (h : data.pos < data.len)
    (hmax : (cString (data.text.drop data.pos)).length ≤ max) :
    data.write max =
      ({ data with pos := (cString (data.text.drop data.pos)).length },
        some (cString (data.text.drop data.pos))) := by
  simp only [JsonResponse.write, Int.not_le.2 h, put_fits hmax]
  simp [ResponseStream.setMark, ResponseStream.marked]

/-- A text that does not fit makes the callback start over. -/
theorem write_exhausted {data : JsonResponse} {max : Nat} (h : data.pos < data.len)
    (hmax : max < (cString (data.text.drop data.pos)).length) :
    data.write max = ({ data with pos := 0 }, some []) := by
  simp only [JsonResponse.write, Int.not_le.2 h, put_exhausted hmax]
  simp [ResponseStream.marked]

/-! ## The reader -/

section Reader

variable {data data' : JsonResponse} {max : Nat}

/-- The reader of a response between two blocks: its buffer is always drained. -/
def reading (data : JsonResponse) : ContentReaderState JsonResponse where
  callbackData := data

theorem process_done (h : data.write max = (data', none)) :
    ((reading data).process JsonResponse.write max).2 = none := by
  simp [ContentReaderState.process, reading, h, ContentReaderState.processNormal]

theorem process_empty (h : data.write max = (data', some [])) :
    ((reading data).process JsonResponse.write max).2 = none := by
  simp [ContentReaderState.process, reading, h, ContentReaderState.processNormal]

theorem process_block {bytes : List Char} (h : data.write max = (data', some bytes))
    (hne : bytes ≠ []) (hlen : bytes.length ≤ max) :
    (reading data).process JsonResponse.write max = (reading data', some bytes) := by
  simp [ContentReaderState.process, reading, h, ContentReaderState.processNormal, hne,
    Nat.min_eq_left hlen]

theorem respond_of_none {sizes : List Nat}
    (h : ((reading data).process JsonResponse.write max).2 = none) :
    (reading data).respond JsonResponse.write (max :: sizes) = some [] := by
  rw [ContentReaderState.respond]
  split
  · rfl
  · next heq => rw [heq] at h; cases h

end Reader

/-- Blocks behind the answer -1 are not asked for. -/
theorem respond_append {D : Type} {callbackWrite : D → Nat → D × Option (List Char)}
    {r : ContentReaderState D} {sizes : List Nat} {out : List Char}
    (h : r.respond callbackWrite sizes = some out) (more : List Nat) :
    r.respond callbackWrite (sizes ++ more) = some out := by
  induction sizes generalizing r out with
  | nil => cases h
  | cons max sizes ih =>
    rw [List.cons_append]
    simp only [ContentReaderState.respond] at h ⊢
    split at h
    · next hprocess => simpa only [hprocess] using h
    · next r' block hprocess =>
      obtain ⟨rest, hrest, rfl⟩ := Option.map_eq_some_iff.1 h
      simp only [ih hrest, Option.map_some]

/-! ## The delivered text -/

theorem cString_length_le (bytes : List Char) : (cString bytes).length ≤ bytes.length :=
  (List.takeWhile_sublist _).length_le

/-- Behind a C string stands a zero byte. -/
theorem cString_drop (bytes : List Char) :
    cString (bytes.drop (cString bytes).length) = [] := by
  induction bytes with
  | nil => rfl
  | cons c bytes ih =>
    by_cases hc : c = '\x00'
    · simp [cString, hc]
    · have hcons : cString (c :: bytes) = c :: cString bytes := by simp [cString, hc]
      rw [hcons, List.length_cons, List.drop_succ_cons]
      exact ih

/-- A callback that has written its C string finds nothing more to write. -/
theorem respond_second {data : JsonResponse} (hpos : data.pos = (cString data.text).length)
    (max : Nat) (sizes : List Nat) :
    (reading data).respond JsonResponse.write (max :: sizes) = some [] := by
  apply respond_of_none
  have hdrop : cString (data.text.drop data.pos) = [] := hpos ▸ cString_drop data.text
  by_cases hle : data.len ≤ data.pos
  · exact process_done (write_done hle max)
  · have hfits : (cString (data.text.drop data.pos)).length ≤ max := by simp [hdrop]
    have hwrite := write_fits (Int.not_le.1 hle) hfits
    rw [hdrop] at hwrite
    exact process_empty hwrite

/-- What the client receives. -/
def delivered (body : List Char) (max : Nat) : List Char :=
  if (JsonResponse.store body).len ≤ 0 then []
  else if (cString body).length ≤ max then cString body
  else []

/-- Every response ends after at most two calls, and the blocks add up to `delivered`. -/
theorem respond_delivered (handler : JsonHandler) (body : List Char) (max₁ max₂ : Nat)
    (sizes : List Nat) :
    handler.respond body (max₁ :: max₂ :: sizes) = some (delivered body max₁) := by
  rw [JsonHandler.respond, JsonHandler.write_eq]
  show (reading (JsonResponse.store body)).respond JsonResponse.write _ = _
  have htext : (JsonResponse.store body).text.drop (JsonResponse.store body).pos = body := rfl
  rw [delivered]
  split
  · next hle => exact respond_of_none (process_done (write_done hle max₁))
  next hlt =>
  have hpos := Int.not_le.1 hlt
  split
  · next hfits =>
    have hwrite := write_fits hpos (htext ▸ hfits)
    rw [htext] at hwrite
    by_cases hnil : cString body = []
    · rw [hnil] at hwrite ⊢
      exact respond_of_none (process_empty hwrite)
    · rw [ContentReaderState.respond, process_block hwrite hnil hfits]
      simp only [respond_second, JsonResponse.store, Option.map_some, List.append_nil]
  · next hlong =>
    have hwrite := write_exhausted hpos (htext ▸ Nat.not_le.1 hlong)
    exact respond_of_none (process_empty hwrite)

theorem delivered_eq_iff {body : List Char} {max : Nat} (hmax : max < 2 ^ 31) :
    delivered body max = body ↔ body = [] ∨ body.length ≤ max ∧ '\x00' ∉ body := by
  rw [delivered]
  split
  · next hle =>
    -- a text whose length overflows `int` is longer than every block
    constructor
    · exact fun h => .inl h.symm
    · rintro (rfl | ⟨hlen, -⟩)
      · rfl
      · have hbmod : (body.length : Int).bmod (2 ^ 32) = body.length := by
          apply Int.bmod_eq_of_le <;> omega
        simp only [JsonResponse.store, hbmod] at hle
        have hzero : body.length = 0 := by omega
        exact (List.eq_nil_of_length_eq_zero hzero).symm
  · split
    · next hfits =>
      rw [cString_eq_self]
      constructor
      · intro hnul
        rw [cString_eq_self.2 hnul] at hfits
        exact .inr ⟨hfits, hnul⟩
      · rintro (rfl | ⟨-, hnul⟩)
        · exact List.not_mem_nil
        · exact hnul
    · next hlong =>
      have hle := cString_length_le body
      constructor
      · exact fun h => .inl h.symm
      · rintro (rfl | ⟨hlen, -⟩)
        · rfl
        · omega

/-- A response is delivered whole exactly if it is empty, or fits into the first block and has no
zero byte. -/
theorem respond_whole_iff (handler : JsonHandler) (body : List Char) (sizes : Nat → Nat)
    (hint : ∀ i, sizes i < 2 ^ 31) :
    (∃ n, handler.respond body ((List.range n).map sizes) = some body) ↔
      body = [] ∨ body.length ≤ sizes 0 ∧ '\x00' ∉ body := by
  rw [← delivered_eq_iff (hint 0)]
  have hlist : ∀ n, (List.range (n + 2)).map sizes =
      sizes 0 :: sizes 1 :: (List.range n).map fun i => sizes (i + 2) := by
    intro n
    simp [List.range_succ_eq_map, Function.comp_def]
  constructor
  · rintro ⟨n, hn⟩
    have hlong := respond_append hn ((List.range 2).map fun i => sizes (n + i))
    have hsizes : (List.range n).map sizes ++ (List.range 2).map (fun i => sizes (n + i)) =
        (List.range (n + 2)).map sizes := by
      simp [List.range_add, Function.comp_def]
    rw [hsizes, hlist] at hlong
    have hdelivered := respond_delivered handler body (sizes 0) (sizes 1)
      ((List.range n).map fun i => sizes (i + 2))
    exact Option.some.inj (hdelivered.symm.trans hlong)
  · intro h
    refine ⟨2, ?_⟩
    rw [hlist 0, respond_delivered, h]

theorem respond_whole_iff_two :
    (∃ n, JsonHandler.netMap.respond ['a', 'b'] ((List.range n).map fun _ => 2) =
      some ['a', 'b']) := by
  apply (respond_whole_iff .netMap ['a', 'b'] (fun _ => 2)
    (fun _ => by decide)).2
  decide

/-- A text of three bytes is lost if the blocks have two. -/
theorem respond_loses_long_body :
    ¬ ∀ (handler : JsonHandler) (body : List Char) (sizes : Nat → Nat),
      (∀ i, 0 < sizes i) → (∀ i, sizes i < 2 ^ 31) →
        ∃ n, handler.respond body ((List.range n).map sizes) = some body := by
  intro h
  obtain ⟨n, hn⟩ := h .netMap ['a', 'b', 'c'] (fun _ => 2) (fun _ => by decide)
    (fun _ => by decide)
  cases n with
  | zero => cases hn
  | succ n =>
    rw [List.range_succ_eq_map] at hn
    cases hn

end Alto.Portal
