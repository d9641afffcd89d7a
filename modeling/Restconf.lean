import Restconf.Location
import Restconf.Request.Reader
import Restconf.Revision.Tree
import Restconf.Stored
import Restconf.Proofs.Address.Ancestors
import Restconf.Proofs.Address.Equivalent
import Restconf.Proofs.Address.Prefix
import Restconf.Proofs.Address.Rejected
import Restconf.Proofs.Address.RoundTrip
import Restconf.Proofs.Key.Continued
import Restconf.Proofs.Library.Along
import Restconf.Proofs.Library.RoundTrip
import Restconf.Proofs.ListInstance.Marks
import Restconf.Proofs.ListInstance.Refused
import Restconf.Proofs.ListInstance.Values
import Restconf.Proofs.Location.Minimal
import Restconf.Proofs.Location.Printable
import Restconf.Proofs.Location.RoundTrip
import Restconf.Proofs.Query.Joined
import Restconf.Proofs.Query.Reordered
import Restconf.Proofs.Request.Branch
import Restconf.Proofs.Request.Line
import Restconf.Proofs.Request.Location
import Restconf.Proofs.Request.Settings
import Restconf.Proofs.Revision.Saved
import Restconf.Proofs.Revision.Times
import Restconf.Proofs.Text.Pieces
