import TinyServe.BatchLoopText
import TinyServe.SseFraming

set_option autoImplicit false

/-! From a prompt to the text on the demo page, through every layer in between. -/
namespace TinyServe.BatchLoop
open OrderedDict Scheduler Streaming SseFraming Runs

/-- The texts that `subscribe` yields of what it was handed. -/
def yielded : List Item → List String
  | .text chunk :: items => chunk :: yielded items
  | _ => []

theorem yielded_texts (texts : List String) :
    yielded (texts.map .text ++ [.endOfStream]) = texts := by
  induction texts with
  | nil => rfl
  | cons text texts ih => rw [List.map_cons, List.cons_append, yielded, ih]

/-- The body of the response to a client that stays. -/
def response (items : List Item) : List UInt8 :=
  body (sseEvents ((yielded items).map fun chunk => (chunk, false))).1

theorem written_staying (chunks : List String) :
    written (chunks.map fun chunk => (chunk, false)) = chunks := by
  induction chunks with
  | nil => rfl
  | cons chunk chunks ih => exact congrArg (chunk :: ·) ih

/-- The page shows what was written if and only if no line break is in it. -/
theorem shown_iff (texts : List String) :
    (texts.flatMap fun text => shown text.toList) = (String.join texts).toList ↔
      '\n' ∉ (String.join texts).toList := by
  rw [String.toList_join]
  constructor
  · intro hsame hin
    rw [← hsame] at hin
    obtain ⟨text, -, hline⟩ := List.mem_flatMap.mp hin
    exact newline_notMem_shown text.toList hline
  · intro hnone
    have hlines : ∀ text ∈ texts, shown text.toList = text.toList := fun text htext =>
      shown_line fun hin => hnone (List.mem_flatMap.mpr ⟨text, htext, hin⟩)
    rw [List.flatMap_def, List.flatMap_def, List.map_congr_left hlines]

/-- However the body is cut into reads, the page shows a request that was streamed to its end the
text of a beginning of what the isolated decoder generates for its prompt and budget, which goes up
to the token that ends it or the last one of the budget if the request ended by itself, exactly if
no line break is in it; of a chunk with line breaks it shows the first line and those that look like
data. -/
theorem page_shows_completion (f : List Token → Token) (env : Env) {oneShot : Bytes → String}
    (hd : DecodesWhole env.decoder oneShot) (s : State)
    (h : Reachable (step env) (SamplesBy f) (start env) s) (id : RequestId)
    (request : PendingRequest) (hr : s.accepted.get? id = some request)
    (hend : .endOfStream ∈ taken s.log id) (reads : List (List UInt8))
    (hreads : reads.flatten = response (taken s.log id)) :
    (streamOne reads).text = (yielded (taken s.log id)).flatMap (fun text => shown text.toList) ∧
    ∃ tokens,
      tokens <+: (fullCompletion f env.eosToken request.promptTokens request.maxTokens).take
        (request.maxTokens - 1) ∧
      (.finished id none ∈ s.log →
        tokens = (fullCompletion f env.eosToken request.promptTokens request.maxTokens).take
          (request.maxTokens - 1)) ∧
      ((streamOne reads).text =
          (oneShot (tokens.flatMap fun token => env.detokenize [token])).toList ↔
        '\n' ∉ (oneShot (tokens.flatMap fun token => env.detokenize [token])).toList) := by
  obtain ⟨texts, tokens, hitems, -, hjoin, hpart, hall⟩ := read_texts hd h hr hend
  have htext := text_shown _ reads hreads
  rw [hitems, yielded_texts, written_staying] at htext
  refine ⟨?_, tokens, hpart, hall, ?_⟩
  · rw [htext, hitems, yielded_texts]
  · rw [htext, ← hjoin]
    exact shown_iff texts

/-- A vocabulary of one token that spells a line break between two letters. -/
def demoBreaking : Env := { demo with
  detokenize := fun tokens => tokens.flatMap fun _ => [0x61, 0x0a, 0x62]
  decoder := utf8Decoder }

theorem page_shows_completion_demo :
    ∃ s, run (step demoBreaking) (start demoBreaking) demoReads = some s ∧
      (streamOne [response (taken s.log 0)]).text = ['a'] := by
  have hfinal : (run (step demoBreaking) (start demoBreaking) demoReads).map (fun s =>
      (s.accepted.get? 0, taken s.log 0)) =
      some (some (newRequest demoBreaking (start demoBreaking) 0 demoBody),
        [.text "a\nb", .endOfStream]) := by decide +kernel
  obtain ⟨s, hs, hparts⟩ := Option.map_eq_some_iff.mp hfinal
  obtain ⟨hreq, htaken⟩ := Prod.mk.inj hparts
  obtain ⟨hshown, -⟩ := page_shows_completion (fun _ => 1) demoBreaking utf8Decoder_whole s
    (Reachable.init.run_allowed demoReads_sampled hs) 0 _ hreq (by simp [htaken])
    [response (taken s.log 0)] List.flatten_singleton
  refine ⟨s, hs, hshown.trans ?_⟩
  rw [htaken]
  decide +kernel

end TinyServe.BatchLoop
