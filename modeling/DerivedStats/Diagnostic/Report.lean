import DerivedStats.Diagnostic.Render

/-!
# Reports

What an operation answers when it cannot do its work: a code with a message, and what is known of
the place. A fault of the source text always has a place; a fault of an evaluation may have one,
with a piece of the source as context; a fault of the arguments has none.
-/

namespace DerivedStats

/-- A fault with its code and message. -/
inductive Report where
  /-- A blank or missing argument. -/
  | argument (code : Code) (message : String)
  /-- A source text that the grammar refuses. -/
  | malformed (code : Code) (message : String) (source : String) (location : Location)
      (rules : List String)
  /-- A misuse found while evaluating or substituting. -/
  | evaluation (code : Code) (message : String) (location : Option Location)
      (context : Option String)
deriving DecidableEq, Inhabited

namespace Report

/-- The number of the fault. -/
def code : Report → Code
  | argument c _ | malformed c _ _ _ _ | evaluation c _ _ _ => c

/-- The message without code and place. -/
def message : Report → String
  | argument _ m | malformed _ m _ _ _ | evaluation _ m _ _ => m

/-- Where the fault is, if that is known. -/
def location : Report → Option Location
  | argument _ _ => none
  | malformed _ _ _ l _ => some l
  | evaluation _ _ l _ => l

/-- The grammar rules in progress, outermost first. -/
def rules : Report → List String
  | malformed _ _ _ _ rs => rs
  | _ => []

/-- The report in one line; only a refused source text shows its place here. -/
def text : Report → String
  | argument c m | evaluation c m _ _ => c.text ++ ": " ++ m
  | malformed c m _ l _ =>
    c.text ++ ": line " ++ toString l.line ++ ":" ++ toString l.column ++ " " ++ m

/-- Sets the place of an evaluation fault; other reports keep theirs. -/
def locatedAt (l : Location) : Report → Report
  | evaluation c m _ context => .evaluation c m (some l) context
  | r => r

/-- Sets the context of an evaluation fault; other reports have none. -/
def withContext (context : String) : Report → Report
  | evaluation c m l _ => .evaluation c m l (some context)
  | r => r

/-- The report made ready for a reader. The context of an evaluation fault takes the place of the
standing advice. -/
def toDiagnostic (r : Report) : Diagnostic where
  code := r.code
  message := r.message
  location := r.location
  help :=
    match r with
    | evaluation _ _ _ (some context) => some context
    | _ => r.code.help
  rules := r.rules

/-- The report rendered for a reader: a refused text is quoted itself, any other fault is shown in
`source`. -/
def render (r : Report) (palette : Palette) (source : String) : String :=
  match r with
  | malformed _ _ refused _ _ => r.toDiagnostic.render palette refused
  | _ => r.toDiagnostic.render palette source

end Report

end DerivedStats
