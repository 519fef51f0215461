import TinyServe.Utf8Stream

set_option autoImplicit false

/-!
The events `_sse_events` writes, and what the client of `demo.html` reads of them. A JavaScript
string is the list of its characters: the client cuts it at ASCII characters only.
-/
namespace TinyServe.SseFraming
open Utf8Stream

section Server

def frame (text : String) : String := "data: " ++ text ++ "\n\n"

/-- `_sse_events` over the chunks of `subscribe`, each with the answer of `is_disconnected`: the
frames it yields, and whether it cancels the request. -/
def sseEvents : List (String × Bool) → List String × Bool
  | [] => ([], false)
  | (text, disconnected) :: rest =>
    if disconnected then
      ([], true)
    else
      let (frames, cancelled) := sseEvents rest
      (frame text :: frames, cancelled)

/-- The response body. -/
def body (frames : List String) : List UInt8 :=
  frames.flatMap fun f => encode f.toList

/-- The chunks that are written, as long as the client is there. -/
def written (chunks : List (String × Bool)) : List String :=
  (chunks.takeWhile fun chunk => !chunk.2).map Prod.fst

theorem sseEvents_frames (chunks : List (String × Bool)) :
    (sseEvents chunks).1 = (written chunks).map frame := by
  induction chunks with
  | nil => rfl
  | cons chunk rest ih =>
    obtain ⟨text, disconnected⟩ := chunk
    cases disconnected with
    | true => rfl
    | false =>
      have hwritten : written ((text, false) :: rest) = text :: written rest := rfl
      rw [hwritten, List.map_cons, ← ih]
      rfl

end Server

section Client

abbrev Text := List Char

def parseFrame (raw : Text) : Text :=
  (raw.splitOn '\n').flatMap fun line =>
    if "data:".toList.isPrefixOf line then
      let v := line.drop 5
      if [' '].isPrefixOf v then v.drop 1 else v
    else
      []

/-- `buf.indexOf("\n\n")`. -/
def indexOfBlank : Text → Option ℕ
  | [] => none
  | c :: rest =>
    if c = '\n' ∧ rest.head? = some '\n' then some 0 else (indexOfBlank rest).map (· + 1)

theorem indexOfBlank_le {buf : Text} {i : ℕ} (h : indexOfBlank buf = some i) :
    i + 2 ≤ buf.length := by
  induction buf generalizing i with
  | nil => simp [indexOfBlank] at h
  | cons c rest ih =>
    rw [indexOfBlank] at h
    split_ifs at h with hblank
    · obtain rfl := Option.some.inj h
      have hne : rest ≠ [] := by
        rintro rfl
        simp at hblank
      have hpos := List.length_pos_iff.mpr hne
      rw [List.length_cons]
      omega
    · obtain ⟨j, hj, rfl⟩ := Option.map_eq_some_iff.mp h
      have hle := ih hj
      rw [List.length_cons]
      omega

/-- What a request shows on the page. -/
structure Card where
  text : Text
  tokens : ℕ
  deriving DecidableEq

def Card.add (card : Card) (text : Text) : Card :=
  if text = [] then card else ⟨card.text ++ text, card.tokens + 1⟩

/-- The loop over the frames that are complete. -/
def drain (card : Card) (buf : Text) : Card × Text :=
  if h : (indexOfBlank buf).isSome then
    let i := (indexOfBlank buf).get h
    drain (card.add (parseFrame (buf.take i))) (buf.drop (i + 2))
  else
    (card, buf)
termination_by buf.length
decreasing_by
  have hle := indexOfBlank_le (Option.some_get h).symm
  rw [List.length_drop]
  omega

structure Reader where
  decoder : Decoder
  buf : Text
  card : Card

/-- One turn of the loop of `streamOne`. -/
def Reader.read (reader : Reader) (chunk : List UInt8) : Reader :=
  let (decoder, chars) := reader.decoder.decode chunk
  let (card, buf) := drain reader.card (reader.buf ++ chars)
  ⟨decoder, buf, card⟩

/-- `streamOne` over what `reader.read` returns until it is done. -/
def streamOne (reads : List (List UInt8)) : Card :=
  (reads.foldl Reader.read ⟨.start, [], ⟨[], 0⟩⟩).card

end Client

section Draining
variable {card : Card} {buf more text rest : Text}

theorem indexOfBlank_append {i : ℕ} (h : indexOfBlank buf = some i) :
    indexOfBlank (buf ++ more) = some i := by
  induction buf generalizing i with
  | nil => simp [indexOfBlank] at h
  | cons c rest ih =>
    rw [indexOfBlank] at h
    rw [List.cons_append, indexOfBlank]
    split_ifs at h with hblank
    · have hhead : c = '\n' ∧ (rest ++ more).head? = some '\n' := by
        rw [List.head?_append, hblank.2]
        exact ⟨hblank.1, rfl⟩
      rw [if_pos hhead, h]
    · obtain ⟨j, hj, rfl⟩ := Option.map_eq_some_iff.mp h
      obtain ⟨d, tail, rfl⟩ : ∃ d tail, rest = d :: tail := by
        refine List.exists_cons_of_ne_nil ?_
        rintro rfl
        simp [indexOfBlank] at hj
      rw [List.cons_append, List.head?_cons, ← List.head?_cons (l := tail), if_neg hblank,
        ← List.cons_append, ih hj]
      rfl

theorem indexOfBlank_frame (h : '\n' ∉ text) (rest : Text) :
    indexOfBlank (text ++ '\n' :: '\n' :: rest) = some text.length := by
  induction text with
  | nil => rfl
  | cons c text ih =>
    rw [List.mem_cons, not_or] at h
    rw [List.cons_append, indexOfBlank, if_neg fun hc => h.1 hc.1.symm, ih h.2]
    rfl

theorem drain_none (h : indexOfBlank buf = none) : drain card buf = (card, buf) := by
  rw [drain, dif_neg (by simp [h])]

theorem drain_some {i : ℕ} (h : indexOfBlank buf = some i) :
    drain card buf = drain (card.add (parseFrame (buf.take i))) (buf.drop (i + 2)) := by
  rw [drain, dif_pos (by simp [h])]
  simp only [h, Option.get_some]

/-- The frames leave the buffer one by one. -/
theorem drain_cases {P : Card → Text → Prop}
    (hnone : ∀ card buf, indexOfBlank buf = none → P card buf)
    (hsome : ∀ card buf i, indexOfBlank buf = some i →
      P (card.add (parseFrame (buf.take i))) (buf.drop (i + 2)) → P card buf)
    (card : Card) (buf : Text) : P card buf := by
  induction card, buf using drain.induct with
  | case1 card buf h i ih => exact hsome card buf i (Option.some_get h).symm ih
  | case2 card buf h => exact hnone card buf (Option.not_isSome_iff_eq_none.mp h)

/-- A cut of the buffer makes no difference to the frames. -/
theorem drain_append (card : Card) (buf more : Text) :
    drain card (buf ++ more) = drain (drain card buf).1 ((drain card buf).2 ++ more) := by
  induction card, buf using drain_cases with
  | hnone card buf h => rw [drain_none h]
  | hsome card buf i h ih =>
    have hle := indexOfBlank_le h
    rw [drain_some (indexOfBlank_append h), drain_some h, ← ih,
      List.take_append_of_le_length (by omega), List.drop_append_of_le_length hle]

theorem drain_drained (card : Card) (buf : Text) : indexOfBlank (drain card buf).2 = none := by
  induction card, buf using drain_cases with
  | hnone card buf h => rw [drain_none h, h]
  | hsome card buf i h ih => rw [drain_some h, ih]

/-- The reads make no difference either. -/
theorem foldl_read (reads : List (List UInt8)) (reader : Reader)
    (hdrained : indexOfBlank reader.buf = none) : (reads.foldl Reader.read reader).card =
      (drain reader.card (reader.buf ++ (reader.decoder.decode reads.flatten).2)).1 := by
  induction reads generalizing reader with
  | nil =>
    have hnothing : (reader.decoder.decode [].flatten).2 = [] := rfl
    rw [hnothing, List.append_nil, drain_none hdrained]
    rfl
  | cons chunk reads ih =>
    rw [List.foldl_cons, ih _ (drain_drained reader.card _), List.flatten_cons, decode_append,
      ← List.append_assoc, drain_append reader.card]
    rfl

theorem streamOne_eq {reads : List (List UInt8)} {chars : Text} (h : reads.flatten = encode chars) :
    streamOne reads = (drain ⟨[], 0⟩ (dropMark chars)).1 := by
  rw [streamOne, foldl_read reads _ rfl, h, List.nil_append]
  exact congrArg (fun cs => (drain ⟨[], 0⟩ cs).1) (decode_encode chars)

end Draining

section Frames
variable {card : Card} {text : Text}

theorem parseFrame_line (h : '\n' ∉ text) : parseFrame ("data: ".toList ++ text) = text := by
  have hline : '\n' ∉ "data: ".toList ++ text := by
    simpa using h
  rw [parseFrame, List.splitOn_eq_singleton hline]
  simp

theorem separator_notMem_splitOn {c : Char} {line : Text} (h : line ∈ text.splitOn c) :
    c ∉ line := by
  induction text generalizing line with
  | nil =>
    rw [List.splitOn_nil, List.mem_singleton] at h
    simp [h]
  | cons d text ih =>
    rw [List.splitOn_cons_eq_if_modifyHead] at h
    split_ifs at h with hd
    · rcases List.mem_cons.mp h with rfl | h
      · exact List.not_mem_nil
      · exact ih h
    · obtain ⟨first, lines, hlines⟩ := List.exists_cons_of_ne_nil (List.splitOn_ne_nil c text)
      rw [hlines] at h ih
      rcases List.mem_cons.mp h with rfl | h
      · have hdc : c ≠ d := fun he => hd (by rw [he, beq_self_eq_true])
        rw [List.mem_cons, not_or]
        exact ⟨hdc, ih List.mem_cons_self⟩
      · exact ih (List.mem_cons_of_mem _ h)

/-- The client never reads a line break. -/
theorem newline_notMem_parseFrame (raw : Text) : '\n' ∉ parseFrame raw := by
  intro h
  obtain ⟨line, hline, hin⟩ := List.mem_flatMap.mp h
  refine separator_notMem_splitOn hline ?_
  dsimp only at hin
  split_ifs at hin
  · exact List.mem_of_mem_drop (List.mem_of_mem_drop hin)
  · exact List.mem_of_mem_drop hin
  · simp at hin

theorem newline_notMem_add (h : '\n' ∉ card.text) (raw : Text) :
    '\n' ∉ (card.add (parseFrame raw)).text := by
  rw [Card.add]
  split_ifs
  · exact h
  · rw [List.mem_append, not_or]
    exact ⟨h, newline_notMem_parseFrame raw⟩

theorem newline_notMem_drain (card : Card) (buf : Text) (h : '\n' ∉ card.text) :
    '\n' ∉ (drain card buf).1.text := by
  induction card, buf using drain_cases with
  | hnone card buf hi => rwa [drain_none hi]
  | hsome card buf i hi ih =>
    rw [drain_some hi]
    exact ih (newline_notMem_add h _)

theorem toList_frame (s : String) :
    (frame s).toList = "data: ".toList ++ s.toList ++ ['\n', '\n'] := by
  rw [frame, String.toList_append, String.toList_append]
  rfl

/-- A frame without a line break in its chunk is read as the chunk. -/
theorem drain_frame {s : String} (h : '\n' ∉ s.toList) (card : Card) (rest : Text) :
    drain card ((frame s).toList ++ rest) = drain (card.add s.toList) rest := by
  have hline : '\n' ∉ "data: ".toList ++ s.toList := by
    simpa using h
  have hsplit : (frame s).toList ++ rest =
      ("data: ".toList ++ s.toList) ++ '\n' :: '\n' :: rest := by
    rw [toList_frame, List.append_assoc]
    rfl
  rw [hsplit, drain_some (indexOfBlank_frame hline rest), List.take_left, parseFrame_line h,
    ← List.drop_drop, List.drop_left]
  rfl

@[simp] theorem add_text (card : Card) (text : Text) :
    (card.add text).text = card.text ++ text := by
  rw [Card.add]
  split_ifs with h
  · rw [h, List.append_nil]
  · rfl

theorem drain_frames (chunks : List String) (h : ∀ s ∈ chunks, '\n' ∉ s.toList) (card : Card) :
    (drain card ((chunks.map frame).flatMap String.toList)).1.text =
      card.text ++ chunks.flatMap String.toList := by
  induction chunks generalizing card with
  | nil =>
    rw [List.map_nil, List.flatMap_nil, drain_none rfl, List.append_nil]
  | cons s chunks ih =>
    rw [List.map_cons, List.flatMap_cons, drain_frame (h s List.mem_cons_self),
      ih (fun t ht => h t (List.mem_cons_of_mem _ ht)), add_text, List.flatMap_cons,
      List.append_assoc]

/-- No byte order mark stands at the start of a body. -/
theorem dropMark_frames (chunks : List String) :
    dropMark ((chunks.map frame).flatMap String.toList) =
      (chunks.map frame).flatMap String.toList := by
  cases chunks with
  | nil => rfl
  | cons s chunks =>
    rw [List.map_cons, List.flatMap_cons, toList_frame]
    rfl

theorem body_eq (chunks : List (String × Bool)) : body (sseEvents chunks).1 =
    encode (((written chunks).map frame).flatMap String.toList) := by
  rw [body, sseEvents_frames, encode, List.flatMap_assoc]
  rfl

end Frames

/-- However the body is cut into reads, the client puts together the chunks that were written if
and only if none of them has a line break in it. -/
theorem text_received_iff (chunks : List (String × Bool)) (reads : List (List UInt8))
    (hreads : reads.flatten = body (sseEvents chunks).1) :
    (streamOne reads).text = (String.join (written chunks)).toList ↔
      ∀ text ∈ written chunks, '\n' ∉ text.toList := by
  rw [body_eq] at hreads
  rw [streamOne_eq hreads, dropMark_frames, String.toList_join]
  constructor
  · intro hsame text htext hin
    have hnone := newline_notMem_drain ⟨[], 0⟩
      (((written chunks).map frame).flatMap String.toList) List.not_mem_nil
    rw [hsame] at hnone
    apply hnone
    exact List.mem_flatMap.mpr ⟨text, htext, hin⟩
  · intro hnone
    exact drain_frames (written chunks) hnone ⟨[], 0⟩

/-- Every byte on its own, those of `é` too. -/
theorem text_received_bytewise :
    (streamOne ((body (sseEvents [(" é", false), ("data:", false)]).1).map fun b => [b])).text =
      " édata:".toList := by
  refine (text_received_iff [(" é", false), ("data:", false)] _ ?_).mpr ?_
  · rw [← List.flatMap_def, List.flatMap_singleton']
  · decide

/-- What stands after a line break is lost. -/
theorem newline_lost : ¬ ∀ (chunks : List String) (reads : List (List UInt8)),
    (∀ s ∈ chunks, s ≠ "") → reads.flatten = body (sseEvents (chunks.map fun s => (s, false))).1 →
      (streamOne reads).text = (String.join chunks).toList := by
  intro h
  have hreads : [body (sseEvents [("a\nb", false)]).1].flatten =
      body (sseEvents [("a\nb", false)]).1 := List.flatten_singleton
  have hsame := h ["a\nb"] _ (by decide) hreads
  rw [streamOne_eq (hreads.trans (body_eq _))] at hsame
  have hnone := newline_notMem_drain ⟨[], 0⟩ (dropMark
    (((written [("a\nb", false)]).map frame).flatMap String.toList)) List.not_mem_nil
  rw [hsame] at hnone
  exact absurd hnone (by decide)

/-! What the page shows of chunks that do have line breaks in them. -/
section Lines
variable {card : Card} {buf text : Text}

/-- What `parseFrame` takes from a line. -/
def lineText (line : Text) : Text :=
  if "data:".toList.isPrefixOf line then
    let v := line.drop 5
    if [' '].isPrefixOf v then v.drop 1 else v
  else
    []

/-- What is left of a chunk: its first line, and of the others those that look like data. -/
def shown (text : Text) : Text :=
  match text.splitOn '\n' with
  | [] => []
  | first :: others => first ++ others.flatMap lineText

theorem parseFrame_eq (raw : Text) : parseFrame raw = (raw.splitOn '\n').flatMap lineText := rfl

theorem parseFrame_append (before after : Text) :
    parseFrame (before ++ '\n' :: after) = parseFrame before ++ parseFrame after := by
  rw [parseFrame_eq, parseFrame_eq, parseFrame_eq, List.splitOn_append_cons_self,
    List.flatMap_append]

theorem parseFrame_blank (after : Text) : parseFrame ('\n' :: after) = parseFrame after :=
  parseFrame_append [] after

/-- A blank line is where the client cuts. -/
theorem indexOfBlank_split {i : ℕ} (h : indexOfBlank buf = some i) :
    buf = buf.take i ++ '\n' :: '\n' :: buf.drop (i + 2) := by
  induction buf generalizing i with
  | nil => simp [indexOfBlank] at h
  | cons c rest ih =>
    rw [indexOfBlank] at h
    split_ifs at h with hblank
    · obtain rfl := Option.some.inj h
      obtain ⟨rfl, hhead⟩ := hblank
      obtain ⟨tail, rfl⟩ := List.head?_eq_some_iff.mp hhead
      rfl
    · obtain ⟨j, hj, rfl⟩ := Option.map_eq_some_iff.mp h
      exact congrArg (c :: ·) (ih hj)

/-- No line is lost or read twice, wherever the client cuts. -/
theorem drain_lines (card : Card) (buf : Text) :
    (drain card buf).1.text ++ parseFrame (drain card buf).2 = card.text ++ parseFrame buf := by
  induction card, buf using drain_cases with
  | hnone card buf h => rw [drain_none h]
  | hsome card buf i h ih =>
    have hsplit := congrArg parseFrame (indexOfBlank_split h)
    rw [parseFrame_append, parseFrame_blank] at hsplit
    rw [drain_some h, ih, add_text, List.append_assoc, ← hsplit]

theorem drain_suffix (card : Card) (buf : Text) : (drain card buf).2 <:+ buf := by
  induction card, buf using drain_cases with
  | hnone card buf h =>
    exact ⟨[], by rw [drain_none h, List.nil_append]⟩
  | hsome card buf i h ih =>
    rw [drain_some h]
    exact ih.trans (List.drop_suffix _ _)

theorem splitOn_after {label : Text} (h : '\n' ∉ label) (text : Text) :
    (label ++ text).splitOn '\n' = (text.splitOn '\n').modifyHead (label ++ ·) := by
  induction label with
  | nil =>
    obtain ⟨first, lines, hlines⟩ := List.exists_cons_of_ne_nil (List.splitOn_ne_nil '\n' text)
    rw [List.nil_append, hlines]
    rfl
  | cons c label ih =>
    rw [List.mem_cons, not_or] at h
    have hc : (c == '\n') = false := beq_eq_false_iff_ne.mpr (Ne.symm h.1)
    rw [List.cons_append, List.splitOn_cons_eq_if_modifyHead, hc, if_neg Bool.false_ne_true, ih h.2]
    exact List.modifyHead_modifyHead ..

theorem parseFrame_label (text : Text) : parseFrame ("data: ".toList ++ text) = shown text := by
  obtain ⟨first, lines, hlines⟩ := List.exists_cons_of_ne_nil (List.splitOn_ne_nil '\n' text)
  rw [parseFrame_eq, splitOn_after (by decide), shown, hlines]
  rfl

theorem parseFrame_frames (chunks : List String) :
    parseFrame ((chunks.map frame).flatMap String.toList) =
      chunks.flatMap fun chunk => shown chunk.toList := by
  induction chunks with
  | nil => rfl
  | cons chunk chunks ih =>
    have hsplit : (frame chunk).toList ++ (chunks.map frame).flatMap String.toList =
        ("data: ".toList ++ chunk.toList) ++
          '\n' :: '\n' :: (chunks.map frame).flatMap String.toList := by
      rw [toList_frame, List.append_assoc]
      rfl
    rw [List.map_cons, List.flatMap_cons, hsplit, parseFrame_append, parseFrame_blank,
      parseFrame_label, ih, List.flatMap_cons]

theorem indexOfBlank_isSome (before : Text) :
    indexOfBlank (before ++ ['\n', '\n']) ≠ none := by
  induction before with
  | nil => simp [indexOfBlank]
  | cons c before ih =>
    rw [List.cons_append, indexOfBlank]
    split_ifs
    · simp
    · simpa using ih

theorem ends_blank (chunks : List String) : (chunks.map frame).flatMap String.toList = [] ∨
    ∃ text, (chunks.map frame).flatMap String.toList = text ++ ['\n', '\n'] := by
  rcases List.eq_nil_or_concat chunks with rfl | ⟨before, last, rfl⟩
  · exact .inl rfl
  · refine .inr ⟨(before.map frame).flatMap String.toList ++ ("data: ".toList ++ last.toList), ?_⟩
    rw [List.concat_eq_append, List.map_append, List.flatMap_append, List.append_assoc,
      ← toList_frame]
    simp

/-- What stays in the buffer of a body is less than a blank line. -/
theorem drain_frames_rest (chunks : List String) (card : Card) :
    parseFrame (drain card ((chunks.map frame).flatMap String.toList)).2 = [] := by
  have hsuffix := drain_suffix card ((chunks.map frame).flatMap String.toList)
  have hdrained := drain_drained card ((chunks.map frame).flatMap String.toList)
  rcases ends_blank chunks with hnil | ⟨text, htext⟩
  · rw [hnil, drain_none rfl]
    rfl
  · rw [htext] at hsuffix hdrained ⊢
    generalize (drain card (text ++ ['\n', '\n'])).2 = rest at hsuffix hdrained ⊢
    have hsuffix' : rest <:+ (text ++ ['\n']) ++ ['\n'] := by
      rwa [List.append_assoc]
    rcases List.suffix_concat_iff.mp hsuffix' with rfl | ⟨rest, rfl, hrest⟩
    · rfl
    · rcases List.suffix_concat_iff.mp hrest with rfl | ⟨rest, rfl, -⟩
      · rfl
      · rw [List.append_assoc] at hdrained
        exact absurd hdrained (indexOfBlank_isSome rest)

theorem shown_line (h : '\n' ∉ text) : shown text = text := by
  rw [shown, List.splitOn_eq_singleton h]
  exact List.append_nil text

/-- However the body is cut into reads, the client shows of each chunk that was written its first
line and of the others those that look like data. -/
theorem text_shown (chunks : List (String × Bool)) (reads : List (List UInt8))
    (hreads : reads.flatten = body (sseEvents chunks).1) :
    (streamOne reads).text = (written chunks).flatMap fun chunk => shown chunk.toList := by
  rw [body_eq] at hreads
  have hlines := drain_lines ⟨[], 0⟩ (((written chunks).map frame).flatMap String.toList)
  rw [drain_frames_rest, List.append_nil, List.nil_append, parseFrame_frames] at hlines
  rw [streamOne_eq hreads, dropMark_frames, hlines]

theorem newline_notMem_shown (text : Text) : '\n' ∉ shown text :=
  parseFrame_label text ▸ newline_notMem_parseFrame _

end Lines

end TinyServe.SseFraming
