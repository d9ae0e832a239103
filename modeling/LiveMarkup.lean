import LiveMarkup.Attribute.Codec
import LiveMarkup.Data.Aspect
import LiveMarkup.Data.Path
import LiveMarkup.Live.Calling
import LiveMarkup.Live.Codec
import LiveMarkup.Live.Holding
import LiveMarkup.Program.Walk
import LiveMarkup.Store.Codec
import LiveMarkup.Proofs.Live.Arranged
import LiveMarkup.Proofs.Live.Buried
import LiveMarkup.Proofs.Live.Outcomes
import LiveMarkup.Proofs.Live.Registered
import LiveMarkup.Proofs.Live.Settled
import LiveMarkup.Proofs.Live.Reached
import LiveMarkup.Proofs.Live.Listed
import LiveMarkup.Proofs.Live.Renewed
import LiveMarkup.Proofs.Dom.Shelf
import LiveMarkup.Proofs.Live.Mounting
import LiveMarkup.Proofs.Live.Showing
import LiveMarkup.Proofs.Live.Shown
import LiveMarkup.Proofs.Live.Selected
import LiveMarkup.Proofs.Live.Lifetimes
import LiveMarkup.Proofs.Live.Glancing
import LiveMarkup.Proofs.Live.Inferring
import LiveMarkup.Proofs.Live.Alone
import LiveMarkup.Proofs.Store.Requests
import LiveMarkup.Proofs.Store.Entries
import LiveMarkup.Proofs.Live.Punctual
import LiveMarkup.Proofs.Live.Forward
import LiveMarkup.Proofs.Program.Gathered
import LiveMarkup.Proofs.Markup.Places
import LiveMarkup.Proofs.Program.Realised
import LiveMarkup.Proofs.Program.Rearranged
import LiveMarkup.Proofs.Markup.Printed
import LiveMarkup.Proofs.Live.Selfward
import LiveMarkup.Proofs.Live.Journeys
import LiveMarkup.Proofs.Program.LoopGrammar
import LiveMarkup.Proofs.Attribute.Twins
import LiveMarkup.Proofs.Dom.SelectorGrammar
import LiveMarkup.Proofs.Live.Integers
import LiveMarkup.Proofs.Live.Mapping
import LiveMarkup.Proofs.Live.Links
import LiveMarkup.Proofs.Dom.Edits
import LiveMarkup.Proofs.Markup.Scanned
import LiveMarkup.Proofs.Data.PathGrammar
import LiveMarkup.Proofs.Mirror.Afresh
