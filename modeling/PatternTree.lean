import PatternTree.Text.Argument
import PatternTree.Blueprint
import PatternTree.Search.Find
import PatternTree.Search.Rules
import PatternTree.Session
import PatternTree.Store.Make
import PatternTree.Store.Plan
import PatternTree.Store.Read
import PatternTree.Store.Session
import PatternTree.Proofs.Lists
import PatternTree.Proofs.Version.Numeral
import PatternTree.Proofs.Version.RoundTrip
import PatternTree.Proofs.Version.Shortest
import PatternTree.Proofs.Tree.Parts
import PatternTree.Proofs.Tree.Positions
import PatternTree.Proofs.Tree.Tokens
import PatternTree.Proofs.Tree.Versions
import PatternTree.Proofs.Tree.Addresses
import PatternTree.Proofs.Tree.Order
import PatternTree.Proofs.Tree.Listing
import PatternTree.Proofs.Tree.Indices
import PatternTree.Proofs.Tree.Siblings
import PatternTree.Proofs.Tree.SignificantSiblings
import PatternTree.Proofs.Tree.Building
import PatternTree.Proofs.Search.Faults
import PatternTree.Proofs.Search.First
import PatternTree.Proofs.Search.Visits
import PatternTree.Proofs.Search.Results
import PatternTree.Proofs.Search.Kinds
import PatternTree.Proofs.Search.Tokens
import PatternTree.Proofs.Search.Locality
import PatternTree.Proofs.Search.Trace
import PatternTree.Proofs.Numbering.Order
import PatternTree.Proofs.Numbering.History
import PatternTree.Proofs.Numbering.Document
import PatternTree.Proofs.Numbering.Finish
import PatternTree.Proofs.Store.Climb
import PatternTree.Proofs.Store.Links
import PatternTree.Proofs.Store.Sound
import PatternTree.Proofs.Store.Positions
import PatternTree.Proofs.Store.Makers
import PatternTree.Proofs.Store.Reading
import PatternTree.Proofs.Store.Frame
import PatternTree.Proofs.Store.Planning
import PatternTree.Proofs.Store.Ancestry
import PatternTree.Proofs.Search.Nested
import PatternTree.Proofs.Numbering.Blocks
import PatternTree.Proofs.Text.Tokens
import PatternTree.Proofs.Text.Paths
import PatternTree.Proofs.Text.Filling
