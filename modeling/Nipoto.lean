import Nipoto.Connectors.KbSync
import Nipoto.Connectors.Ownership
import Nipoto.Connectors.Retry
import Nipoto.Connectors.Served
import Nipoto.Connectors.Takeover
import Nipoto.Connectors.Targets
import Nipoto.Connectors.Writes
import Nipoto.Core.Auth
import Nipoto.Core.Startup
import Nipoto.Db.Lifetime
import Nipoto.Db.Realized
import Nipoto.Db.Transparent
import Nipoto.Retrieval.Breadcrumb
import Nipoto.Retrieval.CleanTwice
import Nipoto.Retrieval.Grouping
import Nipoto.Retrieval.HalfSpaceVariants
import Nipoto.Retrieval.Idempotence
import Nipoto.Retrieval.Indexed
import Nipoto.Retrieval.LineEnds
import Nipoto.Retrieval.Lists
import Nipoto.Retrieval.OnePass
import Nipoto.Retrieval.Tables
import Nipoto.Scripts.CheckProvider
import Nipoto.Scripts.ConvertMain
